import TemporalRewards.Proofs.Formula.Progression
import TemporalRewards.Proofs.Monitor.Soundness

/-! How a junction reads. One verdict of an operand decides a junction and the opposite one
has no influence on it, so that flattening, sorting and dropping operands changes nothing.
Only a complement or a constant that simplification finds does. -/
namespace TemporalRewards

namespace Junction

/-- The verdict of one operand that decides the junction. -/
def decisive : Junction → Verdict
  | all => .violated
  | any => .satisfied

/-- The verdict of an operand that leaves the junction to the other operands. -/
def neutral : Junction → Verdict
  | all => .satisfied
  | any => .violated

end Junction

namespace Verdict

variable {a b c : Verdict} {kind : Junction}

theorem not_not (a : Verdict) : a.not.not = a := by
  cases a <;> rfl

theorem not_eq_ofBool {b : Bool} : a.not = ofBool b ↔ a = ofBool !b := by
  cases b with
  | false => exact not_eq_violated
  | true => exact not_eq_satisfied

theorem join_comm (a b : Verdict) : Truth.join a b = Truth.join b a := by
  cases a <;> cases b <;> rfl

theorem not_meet (a b : Verdict) : (Truth.meet a b).not = Truth.join a.not b.not := by
  cases a <;> cases b <;> rfl

/-- Verdicts are told apart by which of the two definite ones they are. -/
theorem eq_of_iff (kind : Junction) (decisive : a = kind.decisive ↔ b = kind.decisive)
    (neutral : a = kind.neutral ↔ b = kind.neutral) : a = b := by
  cases kind <;> cases a <;> cases b <;>
    simp [Junction.decisive, Junction.neutral] at decisive neutral ⊢

end Verdict

open Formula

section Junctions

variable {positive : Bool} {kind : Junction} {φ : Formula} {xs : List Formula}

theorem presume_junction_eq_decisive : presume positive (junction kind xs) = kind.decisive ↔
    ∃ φ ∈ xs, presume positive φ = kind.decisive := by
  cases kind with
  | all => exact presumeAll_eq_violated
  | any => exact presumeAny_eq_satisfied

theorem presume_junction_eq_neutral : presume positive (junction kind xs) = kind.neutral ↔
    ∀ φ ∈ xs, presume positive φ = kind.neutral := by
  cases kind with
  | all => exact presumeAll_eq_satisfied
  | any => exact presumeAny_eq_violated

/-- A junction that has operands reads as a truth value only if one of them does. -/
theorem exists_presume_of_junction {value : Bool} (several : 2 ≤ xs.length)
    (read : presume positive (junction kind xs) = Verdict.ofBool value) :
    ∃ φ ∈ xs, presume positive φ = Verdict.ofBool value := by
  have either : Verdict.ofBool value = kind.decisive ∨ Verdict.ofBool value = kind.neutral := by
    cases kind <;> cases value <;> simp [Verdict.ofBool, Junction.decisive, Junction.neutral]
  rcases either with same | same <;> rw [same] at read ⊢
  · exact presume_junction_eq_decisive.mp read
  · obtain ⟨φ, member⟩ := List.exists_mem_of_length_pos (Nat.lt_of_lt_of_le Nat.zero_lt_two several)
    exact ⟨φ, member, presume_junction_eq_neutral.mp read φ member⟩

theorem presume_identity (positive : Bool) (kind : Junction) :
    presume positive kind.identity = kind.neutral := by
  cases kind <;> rfl

theorem decisive_ne_neutral (kind : Junction) : kind.decisive ≠ kind.neutral := by
  cases kind <;> decide

theorem presume_singleton (positive : Bool) (kind : Junction) (φ : Formula) :
    presume positive (junction kind [φ]) = presume positive φ := by
  apply Verdict.eq_of_iff kind
  · simp only [presume_junction_eq_decisive, List.mem_singleton, exists_eq_left]
  · simp only [presume_junction_eq_neutral, List.forall_mem_singleton]

/-- A formula reads as the junction of its parts. -/
theorem presume_parts (positive : Bool) (kind : Junction) (φ : Formula) :
    presume positive (junction kind (kind.parts φ)) = presume positive φ := by
  rcases parts_cases kind φ with single | ⟨operands, rfl⟩
  · rw [single, presume_singleton]
  · rw [parts_junction]

/-- Flattening, sorting and leaving operands out does not change how a junction reads. -/
theorem presume_keptOperands (positive : Bool) (kind : Junction) (xs : List Formula) :
    presume positive (junction kind (keptOperands kind xs)) =
      presume positive (junction kind xs) := by
  apply Verdict.eq_of_iff kind
  · simp only [presume_junction_eq_decisive]
    constructor
    · rintro ⟨ψ, kept, decides⟩
      obtain ⟨φ, present, part⟩ := List.mem_flatMap.mp (mem_keptOperands.mp kept).1
      refine ⟨φ, present, ?_⟩
      rw [← presume_parts, presume_junction_eq_decisive]
      exact ⟨ψ, part, decides⟩
    · rintro ⟨φ, present, decides⟩
      rw [← presume_parts, presume_junction_eq_decisive] at decides
      obtain ⟨ψ, part, decides⟩ := decides
      refine ⟨ψ, mem_keptOperands.mpr ⟨List.mem_flatMap.mpr ⟨φ, present, part⟩, ?_⟩, decides⟩
      rintro rfl
      rw [presume_identity] at decides
      exact decisive_ne_neutral kind decides.symm
  · simp only [presume_junction_eq_neutral]
    constructor
    · intro every φ present
      rw [← presume_parts, presume_junction_eq_neutral]
      intro ψ part
      by_cases proper : ψ = kind.identity
      · rw [proper, presume_identity]
      · exact every ψ (mem_keptOperands.mpr ⟨List.mem_flatMap.mpr ⟨φ, present, part⟩, proper⟩)
    · intro every ψ kept
      obtain ⟨φ, present, part⟩ := List.mem_flatMap.mp (mem_keptOperands.mp kept).1
      have reads := every φ present
      rw [← presume_parts, presume_junction_eq_neutral] at reads
      exact reads ψ part

/-- A simplified junction that is not decided reads as the junction of its operands. -/
theorem presume_junctionOf (undecided : ¬ Absorbed kind xs) :
    presume positive (junctionOf kind xs) = presume positive (junction kind xs) := by
  rw [junctionOf_of_not_absorbed undecided, ← presume_keptOperands]
  match keptOperands kind xs with
  | [] => cases kind <;> rfl
  | [φ] => exact (presume_singleton positive kind φ).symm
  | _ :: _ :: _ => rfl

end Junctions

end TemporalRewards
