import TemporalRewards.Checker

/-! How a checker goes through its properties. Each of them gives an award at a reading, which
is what it fires there, if it does, or an error that ends the check. What is noted meanwhile
does not count for the answer. -/
namespace TemporalRewards

namespace Property

/-- What a property fires at a reading, or the error that it stops with. -/
def award (p : Property) (r : Reading) : Except RunError (Option Firing) × Property :=
  match (p.evaluate r.tick r.observation).value with
  | (.error e, p) => (.error (.stale e), p)
  | (.ok false, p) => (.ok none, p)
  | (.ok true, p) =>
    match p.reward.evaluate r.scope r.tick with
    | .error e => (.error (.evaluation e), p)
    | .ok reward => (.ok (some ⟨p.formula, p.mode, reward⟩), p)

variable {p after : Property} {r : Reading}

/-- The reward of a property does not count for what becomes of it. -/
theorem snd_award (p : Property) (r : Reading) :
    (p.award r).2 = (p.evaluate r.tick r.observation).value.2 := by
  unfold award
  rcases (p.evaluate r.tick r.observation).value with ⟨_ | _ | _, after⟩
  · rfl
  · rfl
  · dsimp only
    split <;> rfl

theorem award_of_silent (evaluated : (p.evaluate r.tick r.observation).value = (.ok false, after)) :
    p.award r = (.ok none, after) := by
  simp only [award, evaluated]

theorem award_of_fired (evaluated : (p.evaluate r.tick r.observation).value = (.ok true, after)) :
    p.award r = match after.reward.evaluate r.scope r.tick with
      | .error e => (.error (.evaluation e), after)
      | .ok reward => (.ok (some ⟨after.formula, after.mode, reward⟩), after) := by
  simp only [award, evaluated]

end Property

namespace Checker

variable {r : Reading}

/-- The properties behind an error are left as they are. -/
theorem value_evaluateAll_cons (r : Reading) (p : Property) (rest : List Property) :
    (evaluateAll r (p :: rest)).value =
      match p.award r with
      | (.error e, p) => (.error e, p :: rest)
      | (.ok firing, p) =>
        ((evaluateAll r rest).value.1.map (firing.toList ++ ·),
          p :: (evaluateAll r rest).value.2) := by
  rw [evaluateAll, Logged.value_bind, Property.award]
  rcases (p.evaluate r.tick r.observation).value with ⟨_ | _ | _, q⟩
  · rfl
  · simp only [Logged.value_bind, Logged.value_pure]
    rcases (evaluateAll r rest).value with ⟨_ | firings, properties⟩
    · rfl
    · rfl
  · dsimp only
    cases q.reward.evaluate r.scope r.tick with
    | error e => rfl
    | ok reward => rfl

theorem value_check (c : Checker) (r : Reading) : (c.check r).value =
    ((evaluateAll r c.properties).value.1.map (c.signalOf r.tick),
      { c with properties := (evaluateAll r c.properties).value.2 }) := by
  simp only [check, Logged.value_bind]
  rcases (evaluateAll r c.properties).value with ⟨e | firings, properties⟩
  · rfl
  · dsimp only
    split <;> rfl

end Checker

end TemporalRewards
