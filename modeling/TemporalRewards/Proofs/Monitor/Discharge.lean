import TemporalRewards.Proofs.Formula.Polarity
import TemporalRewards.Proofs.Monitor.Presumption
import TemporalRewards.Proofs.Monitor.Violation

/-! Satisfactions that are not presumed. Where eventually occurs at even and always and until
at odd polarity only, nothing that is open reads better than inconclusive, so a monitor
reports a satisfaction only when nothing is left to be done. -/
namespace TemporalRewards

open Formula

/-- Of simplified formulas that wait for something to happen only `top` reads as satisfied
and, below an odd number of negations, only `bot` as violated. -/
theorem eq_ofBool_of_presume {φ : Formula} {b : Bool} (normal : φ.Normal)
    (coSafe : φ.Respects (.coSafety (· = false)) b) (read : presume b φ = Verdict.ofBool b) :
    φ = ofBool b := by
  induction normal generalizing b with
  | bot | top => cases b <;> simp [presume, Verdict.ofBool, ofBool] at read ⊢
  | atom | next | eventually => cases b <;> simp [presume, Verdict.ofBool] at read
  | always =>
    cases coSafe with
    | always odd =>
      cases b with
      | true => contradiction
      | false => simp [presume, Verdict.ofBool] at read
  | strongUntil =>
    cases coSafe with
    | strongUntil odd =>
      obtain rfl : b = false := odd
      simp [presume, Verdict.ofBool] at read
  | neg _ stays ih =>
    cases coSafe with
    | neg coSafe =>
      rw [presume, Verdict.not_eq_ofBool] at read
      rw [ih coSafe read, negationOf_ofBool] at stays
      cases b <;> contradiction
  | @junction kind _ _ tidy several ih =>
    obtain ⟨φ, member, read⟩ := exists_presume_of_junction several read
    -- The operand is a constant, and a simplified junction has none.
    have constant := ih φ member (respects_junction.mp coSafe φ member) read
    have undecided : φ ≠ kind.absorbing := fun same => tidy.undecided (same ▸ member)
    have proper : φ ≠ kind.identity := fun same => tidy.proper (same ▸ member)
    cases kind <;> cases b <;> contradiction
  | @implies φ ψ _ _ stays ihφ ihψ =>
    cases coSafe with
    | implies premise conclusion =>
      rw [presume] at read
      cases b with
      | true =>
        rcases Verdict.join_eq_satisfied.mp read with refuted | met
        · rw [ihφ premise (Verdict.not_eq_satisfied.mp refuted)] at stays
          contradiction
        · rw [ihψ conclusion met] at stays
          cases φ <;> contradiction
      | false =>
        obtain ⟨granted, missed⟩ := Verdict.join_eq_violated.mp read
        rw [ihφ premise (Verdict.not_eq_violated.mp granted), ihψ conclusion missed] at stays
        contradiction

namespace Monitor

variable {φ : Formula} {m : Monitor} {calls : List (Tick × Observation)}

theorem Reached.satisfied_iff (coSafe : φ.simplify.Respects (.coSafety (· = false)) true)
    (reached : Reached φ calls m) : m.verdict = .satisfied ↔ m.residual = .top := by
  obtain ⟨_, normal, respects⟩ := reached.residual_of_step
    (p := fun ψ => ψ.Normal ∧ ψ.Respects (.coSafety (· = false)) true)
    ⟨normal_simplify φ, coSafe⟩
    fun ψ ⟨normal, respects⟩ o => ⟨normal_progress ψ o, respects.progress normal o⟩
  constructor
  · exact eq_ofBool_of_presume normal respects
  · intro discharged
    rw [verdict, discharged]
    rfl

/-- An eventuality is never taken as met before it is. If a formula without until has
eventually only below an even and always only below an odd number of negations, premises
included, then in every state that its monitor reaches the verdict is a satisfaction just
when the residual is `top`; and where the monitor is temporal, a property over it that
fires on satisfactions fires only when the monitor is settled. -/
theorem satisfaction_discharged (coSafe : φ.Respects (.coSafety fun _ => False) true)
    (reached : Reached φ calls m) :
    (m.verdict = .satisfied ↔ m.residual = .top) ∧
      (m.isTemporal = true → ∀ p : Property, p.monitor = m → p.mode = .satisfaction →
        ∀ t o after, (p.evaluate t o).value = (.ok true, after) →
          after.monitor.settled? = some true) := by
  have simplified : φ.simplify.Respects (.coSafety (· = false)) true :=
    (coSafe.simplify fun _ => False.elim).mono (fun _ => id) fun _ => False.elim
  refine ⟨reached.satisfied_iff simplified, ?_⟩
  rintro temporal p rfl mode t o after evaluated
  obtain ⟨verdict, observed, triggered⟩ := Property.observed_of_fired evaluated
  rw [mode, Mode.triggers_satisfaction] at triggered
  subst triggered
  have discharged := (reached.accepted observed).satisfied_iff simplified
  obtain ⟨_, satisfied, same⟩ := observe_ok_iff.mp observed
  have still : after.monitor.isTemporal = true := by
    rw [same]
    exact temporal
  rw [settled?, if_pos still, discharged.mp satisfied.symm]

/-- The monitor of `G a ⇒ F b` after `a` at tick 0, with its premise still open. -/
def unmet : Monitor := ((ofFormula (.implies (.always (.atom 0)) (.eventually (.atom 1)))).observe 0
  (.ofNat 1)).value.2

/-- `G a ⇒ F b` is inconclusive while `a` goes on, and fires with the first `b`. -/
theorem satisfaction_discharged_implies : unmet.verdict = .inconclusive ∧
    ∃ p after : Property, p.monitor = unmet ∧ (p.evaluate 1 (.ofNat 3)).value = (.ok true, after) ∧
      after.monitor.settled? = some true := by
  have coSafe : Respects (.coSafety fun _ => False) true
      (.implies (.always (.atom 0)) (.eventually (.atom 1))) :=
    .implies (.always rfl .atom) (.eventually rfl .atom)
  have reached : Reached (.implies (.always (.atom 0)) (.eventually (.atom 1)))
      [(0, .ofNat 1)] unmet := .accepted .start rfl
  let p : Property := ⟨"G a => F b", unmet, .constant 1, .satisfaction, true, false⟩
  have discharged := satisfaction_discharged coSafe reached
  exact ⟨rfl, p, _, rfl, rfl, discharged.2 rfl p rfl rfl 1 (.ofNat 3) _ rfl⟩

end Monitor

end TemporalRewards
