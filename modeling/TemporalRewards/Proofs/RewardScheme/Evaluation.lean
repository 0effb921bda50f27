import TemporalRewards.Proofs.Monitor.History
import TemporalRewards.Proofs.RewardScheme.Awards
import TemporalRewards.RewardScheme

/-! What a successful evaluation does. A property sees a reading on its own, so a
checker changes each of its properties as if it were alone; the rewards and the
texts of a signal are those of the properties that fired, in order. -/
namespace TemporalRewards

/-- What the monitors take from readings. -/
def Reading.observations (history : List Reading) : List (Tick × Observation) :=
  history.map fun r => (r.tick, r.observation)

namespace Property

variable {p after : Property} {r : Reading} {fired : Bool}

/-- The property after a reading that it accepts. -/
def see (p : Property) (r : Reading) : Property :=
  if p.active then
    { p with
      monitor := p.monitor.advance r.tick r.observation
      fired := p.mode.triggers (p.monitor.advance r.tick r.observation).verdict }
  else { p with fired := false }

theorem evaluate_ok (evaluated : (p.evaluate r.tick r.observation).value = (.ok fired, after)) :
    after = p.see r ∧ fired = (p.see r).fired := by
  unfold evaluate at evaluated
  unfold see
  split at evaluated
  · rename_i active
    rw [if_pos active]
    unfold check at evaluated
    rcases observed : (p.monitor.observe r.tick r.observation).value with ⟨_ | verdict, m⟩
    · simp [observed] at evaluated
    · obtain ⟨_, rfl, rfl⟩ := Monitor.observe_ok_iff.mp observed
      simp only [Logged.value_bind, Logged.value_pure, observed, judge, Prod.mk.injEq,
        Except.ok.injEq] at evaluated
      exact ⟨evaluated.2.symm, evaluated.1.symm⟩
  · rename_i inactive
    rw [if_neg inactive]
    simp only [judge, Prod.mk.injEq, Except.ok.injEq] at evaluated
    exact ⟨evaluated.2.symm, evaluated.1.symm⟩

/-- The property after a history of readings. -/
def follow (p : Property) (history : List Reading) : Property := history.foldl see p

theorem follow_append (p : Property) (history : List Reading) (r : Reading) :
    p.follow (history ++ [r]) = (p.follow history).see r := by
  rw [follow, List.foldl_append]
  rfl

end Property

namespace Checker

variable {c after : Checker} {r : Reading} {firings : List Firing} {signal : Signal}

/-- The properties that fired, with their rewards at a reading. -/
structure Fires (r : Reading) (properties : List Property) (firings : List Firing) : Prop where
  rewards : (properties.filter (·.fired)).mapM (fun p => p.reward.evaluate r.scope r.tick) =
    .ok (firings.map (·.reward))
  texts : (properties.filter (·.fired)).map (fun p => (p.formula, p.mode)) =
    firings.map (fun f => (f.formula, f.mode))

theorem Fires.append {front back : List Property} {ahead behind : List Firing}
    (first : Fires r front ahead) (last : Fires r back behind) :
    Fires r (front ++ back) (ahead ++ behind) where
  rewards := by
    rw [List.filter_append, List.mapM_append, first.rewards, last.rewards, List.map_append]
    rfl
  texts := by
    rw [List.filter_append, List.map_append, first.texts, last.texts, List.map_append]

theorem award_ok {p next : Property} {firing : Option Firing}
    (awarded : p.award r = (.ok firing, next)) :
    next = p.see r ∧ Fires r [next] firing.toList := by
  rcases evaluated : (p.evaluate r.tick r.observation).value with ⟨e | fired, after⟩
  · simp [Property.award, evaluated] at awarded
  obtain ⟨seen, fires⟩ := Property.evaluate_ok evaluated
  rw [← seen] at fires
  cases fired with
  | false =>
    rw [Property.award_of_silent evaluated] at awarded
    obtain ⟨answer, rfl⟩ := Prod.mk.inj awarded
    obtain rfl := Except.ok.inj answer
    have silent : [after].filter (·.fired) = [] := by simp [← fires]
    refine ⟨seen, ?_, ?_⟩
    · rw [silent]
      rfl
    · rw [silent]
      rfl
  | true =>
    rw [Property.award_of_fired evaluated] at awarded
    rcases value : after.reward.evaluate r.scope r.tick with cause | reward
    · simp [value] at awarded
    rw [value] at awarded
    obtain ⟨answer, rfl⟩ := Prod.mk.inj awarded
    obtain rfl := Except.ok.inj answer
    have alone : [after].filter (·.fired) = [after] := by simp [← fires]
    refine ⟨seen, ?_, ?_⟩
    · rw [alone, List.mapM_cons, value]
      rfl
    · rw [alone]
      rfl

theorem evaluateAll_ok {properties rest : List Property}
    (evaluated : (evaluateAll r properties).value = (.ok firings, rest)) :
    rest = properties.map (·.see r) ∧ Fires r rest firings := by
  induction properties generalizing firings rest with
  | nil =>
    obtain ⟨same, rfl⟩ := Prod.mk.inj evaluated
    obtain rfl := Except.ok.inj same
    exact ⟨rfl, rfl, rfl⟩
  | cons p properties ih =>
    rw [value_evaluateAll_cons] at evaluated
    rcases awarded : p.award r with ⟨e | firing, next⟩
    · simp [awarded] at evaluated
    rcases others : (evaluateAll r properties).value with ⟨e | later, rest'⟩
    · simp [awarded, others, Except.map] at evaluated
    rw [awarded, others] at evaluated
    obtain ⟨same, rfl⟩ := Prod.mk.inj evaluated
    obtain rfl := Except.ok.inj same
    obtain ⟨rfl, first⟩ := award_ok awarded
    obtain ⟨rfl, last⟩ := ih others
    exact ⟨rfl, first.append last⟩

/-- The checker after a reading that all its properties accept. -/
def see (c : Checker) (r : Reading) : Checker := { c with properties := c.properties.map (·.see r) }

theorem check_ok (checked : (c.check r).value = (.ok signal, after)) :
    after = c.see r ∧ ∃ firings, Fires r after.properties firings ∧
      signal = c.signalOf r.tick firings := by
  rw [value_check] at checked
  rcases evaluated : (evaluateAll r c.properties).value with ⟨_ | firings, rest⟩
  · simp [evaluated, Except.map] at checked
  · obtain ⟨rfl, fires⟩ := evaluateAll_ok evaluated
    rw [evaluated] at checked
    obtain ⟨same, rfl⟩ := Prod.mk.inj checked
    exact ⟨rfl, firings, fires, (Except.ok.inj same).symm⟩

/-- Every firing has one of the two modes. -/
theorem signalOf_fired (c : Checker) (tick : Tick) (firings : List Firing) :
    (c.signalOf tick firings).info.fired = !firings.isEmpty := by
  cases firings with
  | nil => rfl
  | cons f rest =>
    cases mode : f.mode <;> simp [signalOf, infoOf, Info.fired, Firing.formulas, mode]

end Checker

end TemporalRewards
