import TemporalRewards.Proofs.Formula.Structure

/-! The operands of a simplified junction: flattened, sorted, distinct and
without constants. A list of operands that is in this form already is kept. -/
namespace TemporalRewards

def Junction.other : Junction → Junction
  | .all => .any
  | .any => .all

namespace Formula

/-- Each operand is before all later ones in the order of formulas. -/
def Increasing (operands : List Formula) : Prop :=
  operands.Pairwise fun φ ψ => compare φ ψ = .lt

theorem mem_insertOperand {φ χ : Formula} {operands : List Formula} :
    χ ∈ insertOperand φ operands ↔ χ = φ ∨ χ ∈ operands := by
  induction operands with
  | nil => simp [insertOperand]
  | cons ψ rest ih =>
    rw [insertOperand]
    split
    · exact List.mem_cons
    · rename_i same
      rw [Std.LawfulEqOrd.eq_of_compare same]
      simp only [List.mem_cons, or_self_left]
    · rw [List.mem_cons, ih, List.mem_cons, or_left_comm]

theorem increasing_insertOperand (φ : Formula) {operands : List Formula} (h : Increasing operands) :
    Increasing (insertOperand φ operands) := by
  induction operands with
  | nil => exact List.pairwise_singleton _ _
  | cons ψ rest ih =>
    obtain ⟨first, others⟩ := List.pairwise_cons.mp h
    rw [insertOperand]
    split
    · rename_i less
      refine List.pairwise_cons.mpr ⟨?_, h⟩
      intro χ member
      rcases List.mem_cons.mp member with rfl | member
      · exact less
      · exact Std.TransCmp.lt_trans less (first χ member)
    · exact h
    · rename_i more
      refine List.pairwise_cons.mpr ⟨?_, ih others⟩
      intro χ member
      rcases mem_insertOperand.mp member with rfl | member
      · exact Std.OrientedCmp.lt_of_gt more
      · exact first χ member

theorem mem_sortOperands {φ : Formula} {operands : List Formula} :
    φ ∈ sortOperands operands ↔ φ ∈ operands := by
  induction operands with
  | nil => rfl
  | cons ψ rest ih =>
    rw [sortOperands, List.foldr_cons, mem_insertOperand, List.mem_cons]
    exact or_congr_right ih

theorem increasing_sortOperands (operands : List Formula) : Increasing (sortOperands operands) := by
  induction operands with
  | nil => exact .nil
  | cons φ rest ih => exact increasing_insertOperand φ ih

/-- Sorting keeps a list that is sorted and distinct already. -/
theorem Increasing.sortOperands_eq {operands : List Formula} (h : Increasing operands) :
    sortOperands operands = operands := by
  induction operands with
  | nil => rfl
  | cons φ rest ih =>
    obtain ⟨first, others⟩ := List.pairwise_cons.mp h
    rw [sortOperands, List.foldr_cons, ← sortOperands, ih others]
    cases rest with
    | nil => rfl
    | cons ψ rest => simp only [insertOperand, first ψ List.mem_cons_self]

theorem Increasing.nodup {operands : List Formula} (h : Increasing operands) : operands.Nodup := by
  refine List.Pairwise.imp ?_ h
  intro φ ψ less same
  have equal : compare ψ ψ = .eq := Std.ReflCmp.compare_self
  rw [same, equal] at less
  contradiction

theorem hasComplement_iff {operands : List Formula} :
    hasComplement operands = true ↔ ∃ φ, neg φ ∈ operands ∧ φ ∈ operands := by
  rw [hasComplement, List.any_eq_true]
  constructor
  · rintro ⟨φ, member, found⟩
    cases φ with
    | neg φ => exact ⟨φ, member, by simpa using found⟩
    | _ => contradiction
  · rintro ⟨φ, negated, plain⟩
    exact ⟨neg φ, negated, by simpa using plain⟩

/-- The operands that a junction keeps, in order, before complements are looked for. -/
def keptOperands (kind : Junction) (operands : List Formula) : List Formula :=
  sortOperands ((operands.flatMap kind.parts).filter (· != kind.identity))

theorem mem_keptOperands {kind : Junction} {operands : List Formula} {φ : Formula} :
    φ ∈ keptOperands kind operands ↔ φ ∈ operands.flatMap kind.parts ∧ φ ≠ kind.identity := by
  rw [keptOperands, mem_sortOperands, List.mem_filter, bne_iff_ne]

theorem junctionOf_eq (kind : Junction) (operands : List Formula) :
    junctionOf kind operands =
      if kind.absorbing ∈ operands.flatMap kind.parts then kind.absorbing
      else if hasComplement (keptOperands kind operands) then kind.absorbing
      else closeJunction kind (keptOperands kind operands) := by
  by_cases h : kind.absorbing ∈ operands.flatMap kind.parts
  · rw [junctionOf, if_pos (List.contains_iff_mem.mpr h), if_pos h]
  · rw [junctionOf, if_neg (mt List.contains_iff_mem.mp h), if_neg h]
    rfl

/-- Flattening takes apart a junction of the same kind and nothing else. -/
theorem parts_junction (kind : Junction) (operands : List Formula) :
    kind.parts (junction kind operands) = operands := by
  simp [Junction.parts]

theorem parts_of_ne {kind : Junction} {φ : Formula} (h : ∀ operands, φ ≠ junction kind operands) :
    kind.parts φ = [φ] := by
  cases φ with
  | junction inner operands =>
    have other : inner ≠ kind := by
      rintro rfl
      exact h operands rfl
    simp only [Junction.parts, if_neg other]
  | _ => rfl

theorem parts_cases (kind : Junction) (φ : Formula) :
    kind.parts φ = [φ] ∨ ∃ operands, φ = junction kind operands := by
  by_cases h : ∃ operands, φ = junction kind operands
  · exact Or.inr h
  · exact Or.inl (parts_of_ne (not_exists.mp h))

end Formula

end TemporalRewards
