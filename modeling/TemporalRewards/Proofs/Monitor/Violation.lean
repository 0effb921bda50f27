import TemporalRewards.Proofs.Formula.Progression
import TemporalRewards.Proofs.Monitor.Residuals
import TemporalRewards.Proofs.RewardScheme.Blueprint

/-! Violations. Of simplified formulas only the constant reads as violated, so a
temporal monitor reports a violation when nothing can make up for it any more. The
violation stays until the reset unless its own tick is observed again. -/
namespace TemporalRewards

/-- Of simplified formulas only `bot` reads as violated and, below a negation, only
`top` as satisfied. Negations and premises pass each of the two to the other. -/
theorem presume_eq_iff {φ : Formula} (normal : φ.Normal) :
    (presume true φ = .violated ↔ φ = .bot) ∧ (presume false φ = .satisfied ↔ φ = .top) := by
  induction normal with
  | bot | top | atom | next | eventually | always | strongUntil => simp [presume]
  | @neg φ _ stays ih =>
    have notBot : φ ≠ .bot := by
      rintro rfl
      contradiction
    have notTop : φ ≠ .top := by
      rintro rfl
      contradiction
    simp [presume, Verdict.not_eq_violated, Verdict.not_eq_satisfied, ih, notBot, notTop]
  | @implies φ ψ _ _ stays ihφ ihψ =>
    have refuted : φ = .top → ψ ≠ .bot := by
      rintro rfl rfl
      contradiction
    have notBot : φ ≠ .bot := by
      rintro rfl
      contradiction
    have notTop : ψ ≠ .top := by
      rintro rfl
      cases φ <;> contradiction
    simpa [presume, Verdict.join_eq_violated, Verdict.join_eq_satisfied, Verdict.not_eq_violated,
      Verdict.not_eq_satisfied, ihφ, ihψ, notBot, notTop] using refuted
  | @junction kind operands _ tidy several ih =>
    obtain ⟨φ, member⟩ := List.exists_mem_of_length_pos (Nat.lt_of_lt_of_le Nat.zero_lt_two several)
    -- The operand that decides a junction and the one that does nothing are not among them.
    have undecided : ∀ φ ∈ operands, φ ≠ kind.absorbing := fun φ member same =>
      tidy.undecided (same ▸ member)
    have proper : ∀ φ ∈ operands, φ ≠ kind.identity := fun φ member same =>
      tidy.proper (same ▸ member)
    cases kind with
    | all =>
      simp only [presume, presumeAll_eq_violated, presumeAll_eq_satisfied, reduceCtorEq, iff_false]
      constructor
      · rintro ⟨φ, member, violated⟩
        exact undecided φ member ((ih φ member).1.mp violated)
      · intro satisfied
        exact proper φ member ((ih φ member).2.mp (satisfied φ member))
    | any =>
      simp only [presume, presumeAny_eq_violated, presumeAny_eq_satisfied, reduceCtorEq, iff_false]
      constructor
      · intro violated
        exact proper φ member ((ih φ member).1.mp (violated φ member))
      · rintro ⟨φ, member, satisfied⟩
        exact undecided φ member ((ih φ member).2.mp satisfied)

theorem Mode.triggers_violation {verdict : Verdict} :
    violation.triggers verdict = true ↔ verdict = .violated := by
  cases verdict <;> decide

theorem Mode.triggers_satisfaction {verdict : Verdict} :
    satisfaction.triggers verdict = true ↔ verdict = .satisfied := by
  cases verdict <;> decide

namespace Monitor

variable {φ : Formula} {m n after : Monitor} {calls : List (Tick × Observation)} {t tick : Tick}
  {o : Observation} {verdict : Verdict} {allowed : Tick → Prop}

/-- Every state that a monitor reaches is in simplified form. -/
theorem Reached.normal (reached : Reached φ calls m) : m.residual.Normal :=
  (reached.residual_of_step (Formula.normal_simplify φ) fun ψ _ o => Formula.normal_progress ψ o).2

theorem Reached.verdict_eq_violated (reached : Reached φ calls m) :
    m.verdict = .violated ↔ m.residual = .bot :=
  (presume_eq_iff reached.normal).1

/-- What a monitor can become without a reset, if it accepts observations for allowed
ticks only. -/
inductive Onward (allowed : Tick → Prop) (m : Monitor) : Monitor → Prop where
  | here : Onward allowed m m
  | observe {n after : Monitor} {tick o answer} : Onward allowed m n →
      (n.observe tick o).value = (answer, after) →
      (∀ verdict, answer = .ok verdict → allowed tick) → Onward allowed m after

/-- The monitor is violated since tick `t`, and only another observation of that very
tick could go back behind the violation. -/
structure Lost (t : Tick) (m : Monitor) : Prop where
  temporal : m.isTemporal = true
  residual : m.residual = .bot
  since : m.lastTick = some t ∨ ∃ last, m.lastTick = some last ∧ t < last ∧ m.base = .bot

theorem Lost.violated (lost : m.Lost t) : m.verdict = .violated := by
  rw [verdict, lost.residual]
  rfl

/-- An observation of a later tick is read against what is left, which is nothing. -/
theorem Lost.observe_ok (lost : m.Lost t) (other : tick ≠ t)
    (observed : (m.observe tick o).value = (.ok verdict, after)) : after.Lost t := by
  obtain ⟨fresh, _, rfl⟩ := observe_ok_iff.mp observed
  rw [stale?_eq_none_iff] at fresh
  have base : t < tick ∧ m.baseAt tick = .bot := by
    rcases lost.since with known | ⟨last, known, later, base⟩
    · have less : t < tick := Nat.lt_of_le_of_ne (fresh t known) (Ne.symm other)
      simp [baseAt, known, less, lost.temporal, lost.residual]
    · refine ⟨Nat.lt_of_lt_of_le later (fresh last known), ?_⟩
      rcases baseAt_cases m tick with same | same
      · rw [same, base]
      · rw [same, lost.residual]
  refine ⟨lost.temporal, ?_, Or.inr ⟨tick, rfl, base.1, base.2⟩⟩
  rw [advance, base.2]
  rfl

theorem Lost.onward (lost : m.Lost t) (onward : Onward (· ≠ t) m n) : n.Lost t := by
  induction onward with
  | here => exact lost
  | @observe _ _ _ _ answer _ observed allowed ih =>
    cases answer with
    | ok verdict => exact ih.observe_ok (allowed verdict rfl) observed
    | error e =>
      obtain ⟨_, rfl⟩ := observe_error_iff.mp observed
      exact ih

/-- Every violation that a temporal monitor reports is one. -/
theorem Reached.lost (reached : Reached φ calls m) (temporal : m.isTemporal = true)
    (observed : (m.observe t o).value = (.ok .violated, after)) : after.Lost t := by
  have now := (reached.accepted observed).verdict_eq_violated
  obtain ⟨_, violated, rfl⟩ := observe_ok_iff.mp observed
  exact ⟨temporal, now.mp violated.symm, Or.inl rfl⟩

end Monitor

namespace Property

open Monitor

variable {φ : Formula} {p q after : Property} {t tick : Tick} {o : Observation} {fired : Bool}
  {allowed : Tick → Prop}

/-- What a property can become without a reset, if its monitor accepts observations
for allowed ticks only. -/
inductive Onward (allowed : Tick → Prop) (p : Property) : Property → Prop where
  | here : Onward allowed p p
  | activate {q : Property} : Onward allowed p q → Onward allowed p q.activate
  | deactivate {q : Property} : Onward allowed p q → Onward allowed p q.deactivate
  | check {q after : Property} {tick o answer} : Onward allowed p q → (q.check tick o).value = (answer, after) →
      (∀ verdict, answer = .ok verdict → allowed tick) → Onward allowed p after
  | evaluate {q after : Property} {tick o answer} : Onward allowed p q →
      (q.evaluate tick o).value = (answer, after) →
      (q.active = true → ∀ fired, answer = .ok fired → allowed tick) → Onward allowed p after

theorem check_value (p : Property) (tick : Tick) (o : Observation) :
    (p.check tick o).value =
      ((p.monitor.observe tick o).value.1, { p with monitor := (p.monitor.observe tick o).value.2 }) :=
  rfl

/-- An active property evaluates by observing, and fires on the verdict. -/
theorem evaluate_active {answer : Except StaleTick Bool} (active : p.active = true)
    (evaluated : (p.evaluate tick o).value = (answer, after)) :
    ∃ seen, (p.monitor.observe tick o).value = (seen, after.monitor) ∧
      answer = seen.map p.mode.triggers := by
  rw [evaluate, if_pos active, Logged.value_bind, check_value] at evaluated
  generalize (p.monitor.observe tick o).value = observed at evaluated ⊢
  obtain ⟨seen, monitor⟩ := observed
  cases seen with
  | error e =>
    obtain ⟨rfl, rfl⟩ := Prod.mk.inj evaluated
    exact ⟨_, rfl, rfl⟩
  | ok verdict =>
    obtain ⟨rfl, rfl⟩ := Prod.mk.inj evaluated
    exact ⟨_, rfl, rfl⟩

/-- An inactive property leaves its monitor alone, and does not fire. -/
theorem evaluate_inactive {answer : Except StaleTick Bool} (inactive : ¬ p.active = true)
    (evaluated : (p.evaluate tick o).value = (answer, after)) :
    answer = .ok false ∧ after.monitor = p.monitor := by
  rw [evaluate, if_neg inactive] at evaluated
  obtain ⟨rfl, rfl⟩ := Prod.mk.inj evaluated
  exact ⟨rfl, rfl⟩

theorem mode_evaluate {answer : Except StaleTick Bool}
    (evaluated : (p.evaluate tick o).value = (answer, after)) : after.mode = p.mode := by
  have kept := blueprint_evaluate p tick o
  rw [evaluated] at kept
  exact congrArg (·.1.mode) kept

/-- While a property goes on, so does its monitor, and the mode stays. -/
theorem Onward.monitor (onward : Onward allowed p q) :
    Monitor.Onward allowed p.monitor q.monitor ∧ q.mode = p.mode := by
  induction onward with
  | here => exact ⟨.here, rfl⟩
  | activate _ ih | deactivate _ ih => exact ih
  | check _ checked allowed ih =>
    rw [check_value] at checked
    obtain ⟨rfl, rfl⟩ := Prod.mk.inj checked
    exact ⟨ih.1.observe rfl allowed, ih.2⟩
  | @evaluate q _ _ _ answer _ evaluated allowed ih =>
    refine ⟨?_, (mode_evaluate evaluated).trans ih.2⟩
    by_cases active : q.active = true
    · obtain ⟨seen, observed, rfl⟩ := evaluate_active active evaluated
      apply ih.1.observe observed
      rintro verdict rfl
      exact allowed active _ rfl
    · rw [(evaluate_inactive active evaluated).2]
      exact ih.1

/-- A property that fires has observed a verdict that its mode fires on. -/
theorem observed_of_fired (evaluated : (p.evaluate tick o).value = (.ok true, after)) :
    ∃ verdict, (p.monitor.observe tick o).value = (.ok verdict, after.monitor) ∧
      p.mode.triggers verdict = true := by
  by_cases active : p.active = true
  · obtain ⟨seen, observed, same⟩ := evaluate_active active evaluated
    cases seen with
    | error e => contradiction
    | ok verdict => exact ⟨verdict, observed, (Except.ok.inj same).symm⟩
  · obtain ⟨silent, _⟩ := evaluate_inactive active evaluated
    contradiction

/-- A property that fires on violations has observed one. -/
theorem violated_of_fired (mode : p.mode = .violation)
    (evaluated : (p.evaluate tick o).value = (.ok true, after)) :
    (p.monitor.observe tick o).value = (.ok .violated, after.monitor) := by
  obtain ⟨verdict, observed, triggered⟩ := observed_of_fired evaluated
  rw [mode, Mode.triggers_violation] at triggered
  rwa [triggered] at observed

/-- Over a lost monitor an active property fires at every other tick. -/
theorem fired_of_lost (lost : p.monitor.Lost t) (mode : p.mode = .violation)
    (active : p.active = true) (other : tick ≠ t)
    (evaluated : (p.evaluate tick o).value = (.ok fired, after)) : fired = true := by
  obtain ⟨seen, observed, same⟩ := evaluate_active active evaluated
  cases seen with
  | error e => contradiction
  | ok verdict =>
    obtain ⟨_, read, _⟩ := observe_ok_iff.mp observed
    have violated := (lost.observe_ok other observed).violated
    rw [Except.ok.inj same, mode, Mode.triggers_violation, read, violated]

end Property

namespace Monitor

variable {φ : Formula} {m : Monitor} {calls : List (Tick × Observation)}

/-- A violation is never presumed, and a later tick never takes it back. In every state
that a temporal monitor reaches, the verdict is a violation just when the residual is
`bot`. If the monitor has reported a violation at a tick, and that tick is not observed
again, then until the reset it is violated after every accepted observation, and a
property over it that fired at the tick on the violation fires at every later tick at
which it is evaluated while it is active. -/
theorem violation_final (reached : Reached φ calls m) (temporal : m.isTemporal = true) :
    (m.verdict = .violated ↔ m.residual = .bot) ∧
      (∀ t o lost, (m.observe t o).value = (.ok .violated, lost) →
        ∀ n, lost.Onward (· ≠ t) n → n.verdict = .violated ∧
          ∀ tick o verdict after, t < tick → (n.observe tick o).value = (.ok verdict, after) →
            verdict = .violated) ∧
      ∀ p : Property, p.monitor = m → p.mode = .violation →
        ∀ t o lost, (p.evaluate t o).value = (.ok true, lost) →
          ∀ q, lost.Onward (· ≠ t) q → q.active = true →
            ∀ tick o fired after, t < tick → (q.evaluate tick o).value = (.ok fired, after) →
              fired = true := by
  refine ⟨reached.verdict_eq_violated, ?_, ?_⟩
  · intro t o lost observed n onward
    have now := (reached.lost temporal observed).onward onward
    refine ⟨now.violated, ?_⟩
    intro tick o verdict after later observed
    obtain ⟨_, rfl, _⟩ := observe_ok_iff.mp observed
    exact (now.observe_ok (Nat.ne_of_gt later) observed).violated
  · rintro p rfl mode t o lost evaluated q onward active tick o fired after later again
    have violated := Property.violated_of_fired mode evaluated
    obtain ⟨onward, kept⟩ := onward.monitor
    have now := (reached.lost temporal violated).onward onward
    have still : q.mode = .violation := by rw [kept, Property.mode_evaluate evaluated, mode]
    exact Property.fired_of_lost now still active (Nat.ne_of_gt later) again

/-- The monitor of `p until q` with the obligations before and after a tick. -/
def untilMonitor (base residual : Formula) (tick : Tick) : Monitor :=
  ⟨.strongUntil (.atom 0) (.atom 1), base, residual, some tick⟩

/-- The monitor of `p until q` after `p` at tick 0. -/
def waiting : Monitor :=
  untilMonitor (.strongUntil (.atom 0) (.atom 1)) (.strongUntil (.atom 0) (.atom 1)) 0

theorem reached_waiting : Reached (.strongUntil (.atom 0) (.atom 1)) [(0, .ofNat 1)] waiting := by
  have observed : ((ofFormula (.strongUntil (.atom 0) (.atom 1))).observe 0 (.ofNat 1)).value =
      (.ok .satisfied, waiting) := rfl
  exact .accepted .start observed

/-- A monitor of `p until q` that saw neither at tick 1 stays violated when `q` comes, and
a property over it that was switched off in between fires again. -/
theorem violation_final_until :
    ∃ lost n, (waiting.observe 1 (.ofNat 0)).value = (.ok .violated, lost) ∧
      (lost.observe 2 (.ofNat 2)).value.2 = n ∧ n.verdict = .violated ∧
      ∃ p fell : Property, p.monitor = waiting ∧
        (p.evaluate 1 (.ofNat 0)).value = (.ok true, fell) ∧
        ∃ fired after, (fell.deactivate.activate.evaluate 2 (.ofNat 2)).value = (.ok fired, after) ∧
          fired = true := by
  let lost := untilMonitor (.strongUntil (.atom 0) (.atom 1)) .bot 1
  let p : Property := ⟨"a U b", waiting, .constant 1, .violation, true, false⟩
  have observed : (waiting.observe 1 (.ofNat 0)).value = (.ok .violated, lost) := rfl
  have next : (lost.observe 2 (.ofNat 2)).value = (.ok .violated, untilMonitor .bot .bot 2) := rfl
  have fired : (p.evaluate 1 (.ofNat 0)).value =
      (.ok true, ⟨"a U b", lost, .constant 1, .violation, true, true⟩) := rfl
  have final := violation_final reached_waiting rfl
  have violated := (final.2.1 _ _ _ observed _ (.observe .here next fun _ _ => by decide)).1
  have fires := final.2.2 p rfl rfl _ _ _ fired _ (.activate (.deactivate .here)) rfl 2 (.ofNat 2) _ _
    (by decide) rfl
  exact ⟨lost, _, observed, congrArg Prod.snd next, violated, p, _, rfl, fired, _, _, rfl, fires⟩

/-- A violation does not survive another observation of its tick: if tick 1 turns out to
have been the `q` of `p until q`, the monitor is satisfied at tick 2. -/
theorem retracted_until : ¬ ∀ φ calls m, Reached φ calls m → m.isTemporal = true →
    ∀ t o lost, (m.observe t o).value = (.ok .violated, lost) →
      ∀ n, lost.Onward (fun _ => True) n →
        ∀ tick o verdict after, t < tick → (n.observe tick o).value = (.ok verdict, after) →
          verdict = .violated := by
  intro never
  let lost := untilMonitor (.strongUntil (.atom 0) (.atom 1)) .bot 1
  let met := untilMonitor (.strongUntil (.atom 0) (.atom 1)) .top 1
  have observed : (waiting.observe 1 (.ofNat 0)).value = (.ok .violated, lost) := rfl
  have again : (lost.observe 1 (.ofNat 2)).value = (.ok .satisfied, met) := rfl
  have next : (met.observe 2 (.ofNat 2)).value = (.ok .satisfied, untilMonitor .top .top 2) := rfl
  have wrong : Verdict.satisfied = .violated :=
    never _ _ _ reached_waiting rfl _ _ _ observed _ (.observe .here again fun _ _ => trivial)
      _ _ _ _ (by decide) next
  contradiction

end Monitor

end TemporalRewards
