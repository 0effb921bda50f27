import TemporalRewards.Proofs.Formula.Progression
import TemporalRewards.Proofs.Monitor.Soundness

/-! Formulas without temporal operators are read in three ways: by evaluation, by progression
and by a monitor. Evaluation answers for these formulas and for no others. What it answers is
the constant that progression leaves, simplification keeps it, and the monitor reports it for
every observation that it accepts, whatever it has seen before. -/
namespace TemporalRewards

namespace Formula

variable {φ : Formula} {o : Observation} {operands : List Formula} {b : Bool}

theorem evaluateAll?_eq_none_iff :
    evaluateAll? o operands = none ↔ ∃ φ ∈ operands, φ.evaluate? o = none := by
  induction operands with
  | nil => simp [evaluateAll?]
  | cons φ rest ih =>
    simp only [evaluateAll?, List.mem_cons, exists_eq_or_imp, ← ih]
    cases φ.evaluate? o <;> simp

/-- There is no truth value just when a temporal operator occurs. -/
theorem evaluate?_eq_none_iff : φ.evaluate? o = none ↔ φ.isTemporal = true := by
  induction φ with
  | bot | top | atom | next | eventually | always | strongUntil => simp [evaluate?, isTemporal]
  | neg φ ih => simp [evaluate?, isTemporal, ih]
  | junction kind operands ih =>
    rw [evaluate?_junction, Option.map_eq_none_iff, evaluateAll?_eq_none_iff, isTemporal_junction]
    exact exists_congr fun φ => and_congr_right (ih φ)
  | implies φ ψ ihφ ihψ =>
    rw [isTemporal, Bool.or_eq_true, ← ihφ, ← ihψ, evaluate?]
    cases φ.evaluate? o <;> simp

theorem isTemporal_of_evaluate? (value : φ.evaluate? o = some b) : φ.isTemporal = false := by
  rw [Bool.eq_false_iff, ne_eq, ← evaluate?_eq_none_iff (o := o), value]
  exact Option.some_ne_none b

theorem progress_of_evaluate? (value : φ.evaluate? o = some b) : φ.progress o = ofBool b := by
  obtain ⟨b', value', left⟩ := progress_propositional (isTemporal_of_evaluate? value) o
  rw [left, Option.some.inj (value'.symm.trans value)]

/-- Simplification keeps the truth value. It can give one to a formula that had none. -/
theorem evaluate?_simplify (plain : φ.isTemporal = false) (o : Observation) :
    φ.simplify.evaluate? o = φ.evaluate? o := by
  obtain ⟨a, before, _⟩ := progress_propositional plain o
  obtain ⟨b, after, _⟩ := progress_propositional (isTemporal_simplify plain) o
  have meaning := satisfies_simplify (φ := φ) (σ := fun _ => o)
  rw [satisfies_iff_evaluate? plain, satisfies_iff_evaluate? (isTemporal_simplify plain), before,
    after, Option.some.injEq, Option.some.injEq] at meaning
  rw [before, after, Bool.eq_iff_iff.mpr meaning]

end Formula

namespace Monitor

open Formula

variable {φ : Formula} {m after : Monitor} {calls : List (Tick × Observation)} {tick : Tick}
  {o : Observation} {verdict : Verdict} {b : Bool}

theorem isSettled_of_memoryless (memoryless : m.isTemporal = false) : m.isSettled = false := by
  simp [isSettled, settled?, memoryless]

/-- A memoryless monitor reports the truth value of its formula at the observation. -/
theorem Reached.observe_of_evaluate? (reached : Reached φ calls m)
    (value : φ.evaluate? o = some b) (observed : (m.observe tick o).value = (.ok verdict, after)) :
    verdict = Verdict.ofBool b ∧ after.isSettled = false := by
  have memoryless := isTemporal_simplify (isTemporal_of_evaluate? value)
  have simplified := (evaluate?_simplify (isTemporal_of_evaluate? value) o).trans value
  constructor
  · obtain ⟨_, read, _⟩ := observe_ok_iff.mp observed
    rw [read, Monitor.verdict, memoryless_residual memoryless reached observed,
      progress_of_evaluate? simplified, presume_ofBool]
  · apply isSettled_of_memoryless
    rw [isTemporal, (reached.accepted observed).formula_eq, memoryless]

/-- Evaluation, progression, simplification and the monitor agree. A formula has a truth value
at an observation just when no temporal operator occurs in it. The value is then the constant
that progression leaves and the value of the simplified formula, and in every state that its
monitor reaches, an accepted observation is answered by the verdict of this value and does
not settle the monitor. -/
theorem evaluation_agrees (φ : Formula) (o : Observation) :
    (φ.evaluate? o = none ↔ φ.isTemporal = true) ∧
      ∀ b, φ.evaluate? o = some b → φ.progress o = ofBool b ∧ φ.simplify.evaluate? o = some b ∧
        ∀ calls m, Reached φ calls m → ∀ tick verdict after,
          (m.observe tick o).value = (.ok verdict, after) →
            verdict = Verdict.ofBool b ∧ after.isSettled = false := by
  refine ⟨evaluate?_eq_none_iff, ?_⟩
  intro b value
  refine ⟨progress_of_evaluate? value, ?_, ?_⟩
  · rw [evaluate?_simplify (isTemporal_of_evaluate? value), value]
  · intro calls m reached tick verdict after observed
    exact reached.observe_of_evaluate? value observed

/-- An empty disjunction beside proposition 70, which no observation holds, after an
observation at which the premise was false. -/
theorem evaluation_agrees_implies : ∃ m, Reached (.implies (.atom 0) (.junction .any
    [.junction .any [], .atom 70])) [(3, .ofNat 2)] m ∧
    ∃ verdict after, (m.observe 3 (.ofNat 1)).value = (.ok verdict, after) ∧
      verdict = .violated ∧ after.isSettled = false := by
  have reached : Reached (.implies (.atom 0) (.junction .any [.junction .any [], .atom 70]))
      [(3, .ofNat 2)] _ := .accepted .start rfl
  have agrees := (evaluation_agrees
    (.implies (.atom 0) (.junction .any [.junction .any [], .atom 70])) (.ofNat 1)).2 false rfl
  exact ⟨_, reached, _, _, rfl, agrees.2.2 _ _ reached 3 _ _ rfl⟩

end Monitor

end TemporalRewards
