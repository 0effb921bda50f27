import TemporalRewards.Formula.Progress

/-! Induction over formulas, and the functions on operand lists in terms of the
operations on lists. A junction carries a list, so the induction hypothesis for
it speaks of every operand. -/
namespace TemporalRewards.Formula

/-- Induction over formulas, with one hypothesis for each operand. -/
@[elab_as_elim, induction_eliminator]
theorem structural {motive : Formula → Prop} (bot : motive bot) (top : motive top)
    (atom : ∀ i, motive (atom i)) (neg : ∀ φ, motive φ → motive (neg φ))
    (junction : ∀ kind operands, (∀ φ ∈ operands, motive φ) → motive (junction kind operands))
    (implies : ∀ φ ψ, motive φ → motive ψ → motive (implies φ ψ))
    (next : ∀ φ, motive φ → motive (next φ))
    (eventually : ∀ φ, motive φ → motive (eventually φ))
    (always : ∀ φ, motive φ → motive (always φ))
    (strongUntil : ∀ φ ψ, motive φ → motive ψ → motive (strongUntil φ ψ)) (φ : Formula) :
    motive φ := by
  refine @Formula.rec motive (fun operands => ∀ φ ∈ operands, motive φ) bot top atom neg junction
    implies next eventually always strongUntil ?_ ?_ φ
  · intro φ member
    contradiction
  · intro φ rest first others
    exact List.forall_mem_cons.mpr ⟨first, others⟩

theorem forall_mem_pair {p : Formula → Prop} {φ ψ : Formula} :
    (∀ χ ∈ [φ, ψ], p χ) ↔ p φ ∧ p ψ := by
  rw [List.forall_mem_cons, List.forall_mem_singleton]

theorem progressAll_eq_map (o : Observation) (operands : List Formula) :
    progressAll o operands = operands.map (progress o) := by
  induction operands with
  | nil => rfl
  | cons φ rest ih => rw [progressAll, ih, List.map_cons]

theorem atomsAll_eq_flatMap (operands : List Formula) :
    atomsAll operands = operands.flatMap atoms := by
  induction operands with
  | nil => rfl
  | cons φ rest ih => rw [atomsAll, ih, List.flatMap_cons]

theorem anyTemporal_eq_any (operands : List Formula) :
    anyTemporal operands = operands.any isTemporal := by
  induction operands with
  | nil => rfl
  | cons φ rest ih => rw [anyTemporal, ih, List.any_cons]

theorem size_pos (φ : Formula) : 0 < φ.size := by
  cases φ <;> simp [size]

theorem ne_of_size_lt {φ ψ : Formula} (smaller : φ.size < ψ.size) : φ ≠ ψ := by
  rintro rfl
  exact Nat.lt_irrefl _ smaller

theorem size_le_sizeAll {φ : Formula} {operands : List Formula} (member : φ ∈ operands) :
    φ.size ≤ sizeAll operands := by
  induction operands with
  | nil => contradiction
  | cons ψ rest ih =>
    rw [sizeAll]
    rcases List.mem_cons.mp member with rfl | later
    · exact Nat.le_add_right _ _
    · exact Nat.le_trans (ih later) (Nat.le_add_left _ _)

theorem length_le_sizeAll (operands : List Formula) : operands.length ≤ sizeAll operands := by
  induction operands with
  | nil => exact Nat.le_refl 0
  | cons φ rest ih =>
    rw [sizeAll, List.length_cons]
    have := size_pos φ
    omega

end TemporalRewards.Formula
