import TemporalRewards.Proofs.Labelling.Bisimulation
import TemporalRewards.Proofs.RewardScheme.Attendance

/-! Checks made again while the evaluator stands still. The first check may take monitors on
to a new tick, and every other one observes that tick again, which replaces an observation by
itself. So from the second check on nothing changes, whatever the first one answered. -/
namespace TemporalRewards

theorem Monitor.observe_again {m after : Monitor} {tick : Tick} {o : Observation}
    {result : Except StaleTick Verdict} (observed : (m.observe tick o).value = (result, after)) :
    (after.observe tick o).value = (result, after) := by
  cases result with
  | error e =>
    obtain ⟨_, rfl⟩ := observe_error_iff.mp observed
    exact observed
  | ok verdict =>
    obtain ⟨_, rfl, rfl⟩ := observe_ok_iff.mp observed
    have current : (m.advance tick o).stale? tick = none := by
      apply stale?_eq_none_iff.mpr
      rintro last ⟨⟩
      exact Nat.le_refl tick
    exact observe_ok_iff.mpr ⟨current, rfl, (advance_again m tick o o).symm⟩

namespace Property

variable {p after : Property} {r : Reading}

theorem evaluate_again {tick : Tick} {o : Observation} {result : Except StaleTick Bool}
    (evaluated : (p.evaluate tick o).value = (result, after)) :
    (after.evaluate tick o).value = (result, after) := by
  unfold evaluate at evaluated
  split at evaluated
  · rename_i active
    rcases observed : (p.monitor.observe tick o).value with ⟨e | verdict, m⟩
    · simp only [check, Logged.value_bind, Logged.value_pure, observed, Prod.mk.injEq] at evaluated
      obtain ⟨rfl, rfl⟩ := evaluated
      simp only [evaluate, if_pos active, check, Logged.value_bind, Logged.value_pure,
        Monitor.observe_again observed]
    · simp only [check, Logged.value_bind, Logged.value_pure, observed, judge,
        Prod.mk.injEq] at evaluated
      obtain ⟨rfl, rfl⟩ := evaluated
      simp only [evaluate, if_pos active, check, Logged.value_bind, Logged.value_pure, judge,
        Monitor.observe_again observed]
  · rename_i inactive
    simp only [judge, Prod.mk.injEq] at evaluated
    obtain ⟨rfl, rfl⟩ := evaluated
    simp only [evaluate, if_neg inactive, judge]

/-- A reward that failed fails again. -/
theorem award_again {result : Except RunError (Option Firing)}
    (awarded : p.award r = (result, after)) : after.award r = (result, after) := by
  have kept : after = (p.evaluate r.tick r.observation).value.2 := by
    rw [← snd_award, awarded]
  have again : (after.evaluate r.tick r.observation).value =
      (p.evaluate r.tick r.observation).value := by
    rw [kept]
    exact evaluate_again rfl
  rw [← awarded, award, award, again]

/-- An inactive property accepts every reading. -/
theorem evaluate_current (current : p.active = true → p.UpTo r.tick) :
    (p.evaluate r.tick r.observation).value = (.ok (p.see r).fired, p.see r) := by
  by_cases active : p.active = true
  · exact evaluate_upTo (current active)
  · simp only [evaluate, see, if_neg active]
    rfl

theorem award_ne_stale (current : p.active = true → p.UpTo r.tick) (e : StaleTick) :
    (p.award r).1 ≠ .error (.stale e) := by
  have evaluated := evaluate_current current
  intro stale
  cases fires : (p.see r).fired with
  | false =>
    rw [fires] at evaluated
    rw [award_of_silent evaluated] at stale
    contradiction
  | true =>
    rw [fires] at evaluated
    rw [award_of_fired evaluated] at stale
    split at stale
    · have other := Except.error.inj stale
      contradiction
    · contradiction

end Property

namespace Checker

variable {ε : Type} [Evaluator ε] {c after : Checker} {r : Reading} {properties rest : List Property}

theorem evaluateAll_again {result : Except RunError (List Firing)}
    (evaluated : (evaluateAll r properties).value = (result, rest)) :
    (evaluateAll r rest).value = (result, rest) := by
  induction properties generalizing result rest with
  | nil =>
    obtain ⟨rfl, rfl⟩ := Prod.mk.inj evaluated
    rfl
  | cons p properties ih =>
    rw [value_evaluateAll_cons] at evaluated
    rcases awarded : p.award r with ⟨e | firing, next⟩
    · rw [awarded] at evaluated
      obtain ⟨rfl, rfl⟩ := Prod.mk.inj evaluated
      rw [value_evaluateAll_cons, Property.award_again awarded]
    · rcases others : (evaluateAll r properties).value with ⟨later, following⟩
      rw [awarded, others] at evaluated
      obtain ⟨rfl, rfl⟩ := Prod.mk.inj evaluated
      rw [value_evaluateAll_cons, Property.award_again awarded, ih others]

theorem evaluateAll_ne_stale (current : ∀ p ∈ properties, p.active = true → p.UpTo r.tick)
    (e : StaleTick) : (evaluateAll r properties).value.1 ≠ .error (.stale e) := by
  induction properties with
  | nil =>
    intro stale
    contradiction
  | cons p properties ih =>
    obtain ⟨first, others⟩ := List.forall_mem_cons.mp current
    have timely := Property.award_ne_stale first e
    have onward := ih others
    rw [value_evaluateAll_cons]
    generalize p.award r = award at timely ⊢
    generalize (evaluateAll r properties).value = answer at onward ⊢
    rcases award with ⟨cause | firing, next⟩
    · intro stale
      exact timely (congrArg Except.error (Except.error.inj stale))
    · rcases answer with ⟨cause | firings, following⟩
      · exact onward
      · intro stale
        contradiction

variable {e : ε} {world : World} {result : Except RunError Signal}

theorem check_again (checked : (c.check r).value = (result, after)) :
    (after.check r).value = (result, after) := by
  rw [value_check] at checked
  obtain ⟨rfl, rfl⟩ := Prod.mk.inj checked
  have again := evaluateAll_again (Prod.eta (evaluateAll r c.properties).value).symm
  simp only [value_check, again]
  rfl

theorem check_ne_stale (current : ∀ p ∈ c.properties, p.active = true → p.UpTo r.tick)
    (e : StaleTick) : (c.check r).value.1 ≠ .error (.stale e) := by
  have onward := evaluateAll_ne_stale current e
  rw [value_check]
  cases answer : (evaluateAll r c.properties).value.1 with
  | error cause =>
    intro stale
    obtain rfl := Except.error.inj stale
    exact onward answer
  | ok firings => exact nofun

/-- Checks that change nothing go by unnoticed. -/
theorem session_checks (steady : (c.check (Evaluator.read world e)).value = (result, c)) (n : Nat)
    (requests : List (Request × World)) :
    c.session e (List.replicate n (.check, world) ++ requests) =
      List.replicate n result ++ c.session e requests := by
  induction n with
  | zero => rfl
  | succ n ih =>
    simp only [List.replicate_succ, List.cons_append, session, value_serve_check, steady, ih]

/-- A check made again while the evaluator stands still answers as before and leaves every
property as it was, with its monitor. That holds of any number of checks, and whatever is
requested after them is answered as without them. A check is refused as stale only if an
active property is ahead of the evaluator. -/
theorem check_idempotent (checked : (c.check (Evaluator.read world e)).value = (result, after)) :
    (after.check (Evaluator.read world e)).value = (result, after) ∧
      (∀ n requests, after.session e (List.replicate n (.check, world) ++ requests) =
        List.replicate n result ++ after.session e requests) ∧
      ((∀ p ∈ c.properties, p.active = true → p.UpTo (Evaluator.read world e).tick) →
        ∀ cause, result ≠ .error (.stale cause)) := by
  have again := check_again checked
  refine ⟨again, session_checks again, ?_⟩
  intro current cause
  have answered := check_ne_stale current cause
  rwa [checked] at answered

/-- A property that settles at tick one, one that is judged at each tick on its own, and one
that is off. -/
def varied : Checker :=
  ⟨[⟨"X odd", .start (.next (.atom 0)), .constant 1, .satisfaction, true, false⟩,
      ⟨"not odd", .start (.neg (.atom 0)), .constant 2, .violation, true, false⟩,
      ⟨"G odd", .start (.always (.atom 0)), .constant 3, .violation, false, false⟩],
    fun left right => left - right⟩

/-- The first check takes the active properties from tick zero to tick one, where the pipeline
went on its own, and the second one leaves them there. -/
theorem check_idempotent_varied : ∃ c p signal after,
    (varied.reset World.empty Pipeline.oddity).value.2.1 = c ∧
    (Evaluator.step World.empty Pipeline.oddity).value.2 = p ∧
    c.properties.map (·.monitor.lastTick) = [some 0, some 0, none] ∧
    (c.check (Evaluator.read World.empty p)).value = (.ok signal, after) ∧
    signal.info = ⟨["not odd"], ["X odd"], none⟩ ∧
    after.properties.map (·.monitor.lastTick) = [some 1, some 1, none] ∧
    after.properties.map (·.monitor.isSettled) = [true, false, false] ∧
    (after.check (Evaluator.read World.empty p)).value = (.ok signal, after) ∧
    ∀ cause, Except.ok signal ≠ .error (RunError.stale cause) := by
  have checked : (((varied.reset World.empty Pipeline.oddity).value.2.1).check
      (Evaluator.read World.empty (Evaluator.step World.empty Pipeline.oddity).value.2)).value =
        (.ok _, _) := rfl
  obtain ⟨again, _, answered⟩ := check_idempotent checked
  refine ⟨_, _, _, _, rfl, rfl, rfl, checked, rfl, rfl, rfl, again, answered ?_⟩
  refine List.forall_mem_cons.mpr ⟨?_, List.forall_mem_cons.mpr ⟨?_, ?_⟩⟩
  · rintro _ last ⟨⟩
    exact Nat.zero_le _
  · rintro _ last ⟨⟩
    exact Nat.zero_le _
  · refine List.forall_mem_singleton.mpr ?_
    intro active
    contradiction

end Checker

end TemporalRewards
