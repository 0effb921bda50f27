import TemporalRewards.Proofs.Formula.Canonical

/-! Simplification as a recursion that also calls itself on formulas which it makes of
parts that are simplified already. It never makes a formula larger, and so every call is
for a formula of less weight: the recursion ends, at a depth that the size of the formula
bounds. -/
namespace TemporalRewards.Formula

section Size

variable {φ ψ : Formula} {kind : Junction} {operands : List Formula}

theorem sizeAll_insertOperand_le (φ : Formula) (operands : List Formula) :
    sizeAll (insertOperand φ operands) ≤ φ.size + sizeAll operands := by
  induction operands with
  | nil => exact Nat.le_refl _
  | cons ψ rest ih =>
    rw [insertOperand]
    split <;> simp only [sizeAll] at ih ⊢ <;> omega

theorem sizeAll_sortOperands_le (operands : List Formula) :
    sizeAll (sortOperands operands) ≤ sizeAll operands := by
  induction operands with
  | nil => exact Nat.le_refl _
  | cons φ rest ih =>
    have inserted := sizeAll_insertOperand_le φ (sortOperands rest)
    rw [sortOperands, List.foldr_cons, ← sortOperands, sizeAll]
    omega

theorem sizeAll_filter_le (p : Formula → Bool) (operands : List Formula) :
    sizeAll (operands.filter p) ≤ sizeAll operands := by
  induction operands with
  | nil => exact Nat.le_refl _
  | cons φ rest ih =>
    rw [List.filter_cons]
    split <;> simp only [sizeAll] <;> omega

theorem sizeAll_append (xs ys : List Formula) : sizeAll (xs ++ ys) = sizeAll xs + sizeAll ys := by
  induction xs with
  | nil => exact (Nat.zero_add _).symm
  | cons φ rest ih => rw [List.cons_append, sizeAll, sizeAll, ih, Nat.add_assoc]

theorem sizeAll_parts_le (kind : Junction) (φ : Formula) : sizeAll (kind.parts φ) ≤ φ.size := by
  rcases parts_cases kind φ with single | ⟨operands, rfl⟩
  · rw [single]
    exact Nat.le_refl _
  · rw [parts_junction, size]
    exact Nat.le_succ _

theorem sizeAll_flatMap_parts_le (kind : Junction) (operands : List Formula) :
    sizeAll (operands.flatMap kind.parts) ≤ sizeAll operands := by
  induction operands with
  | nil => exact Nat.le_refl _
  | cons φ rest ih =>
    have first := sizeAll_parts_le kind φ
    rw [List.flatMap_cons, sizeAll_append, sizeAll]
    omega

theorem sizeAll_keptOperands_le (kind : Junction) (operands : List Formula) :
    sizeAll (keptOperands kind operands) ≤ sizeAll operands :=
  (sizeAll_sortOperands_le _).trans
    ((sizeAll_filter_le _ _).trans (sizeAll_flatMap_parts_le kind operands))

theorem size_closeJunction_le (kind : Junction) (operands : List Formula) :
    (closeJunction kind operands).size ≤ sizeAll operands + 1 := by
  match operands with
  | [] => cases kind <;> exact Nat.le_refl _
  | [φ] => exact Nat.le_succ _
  | φ :: ψ :: rest =>
    rw [closeJunction_eq (by simp), size]

theorem size_junctionOf_le (kind : Junction) (operands : List Formula) :
    (junctionOf kind operands).size ≤ sizeAll operands + 1 := by
  by_cases absorbed : Absorbed kind operands
  · rw [junctionOf_of_absorbed absorbed]
    cases kind <;> exact Nat.le_add_left 1 _
  · rw [junctionOf_of_not_absorbed absorbed]
    exact (size_closeJunction_le kind _).trans
      (Nat.succ_le_succ (sizeAll_keptOperands_le kind operands))

theorem size_impliesOf_le (φ ψ : Formula) : (impliesOf φ ψ).size ≤ φ.size + ψ.size + 1 := by
  have denied := size_negationOf_le φ
  rcases impliesOf_cases φ ψ with same | same | same | same <;> simp only [same, size] <;> omega

theorem size_untilOf_le (φ ψ : Formula) : (untilOf φ ψ).size ≤ φ.size + ψ.size + 1 := by
  rcases untilOf_cases φ ψ with same | same | same | same
  · rw [same]; omega
  · rw [same]; omega
  · rcases eventuallyOf_cases ψ with found | found <;> simp only [same, found, size] <;> omega
  · rw [same, size]

/-- Simplification makes no formula larger. -/
theorem size_simplify_le (φ : Formula) : φ.simplify.size ≤ φ.size := by
  induction φ with
  | bot | top | atom => rw [simplify]
  | neg φ ih =>
    rw [simplify]
    exact (size_negationOf_le _).trans (Nat.succ_le_succ ih)
  | junction kind operands ih =>
    have smaller : sizeAll (operands.map simplify) ≤ sizeAll operands := by
      clear kind
      induction operands with
      | nil => exact Nat.le_refl _
      | cons φ rest later =>
        obtain ⟨first, others⟩ := List.forall_mem_cons.mp ih
        exact Nat.add_le_add first (later others)
    rw [simplify_junction, size]
    exact (size_junctionOf_le kind _).trans (Nat.succ_le_succ smaller)
  | implies φ ψ ihφ ihψ =>
    have bound := size_impliesOf_le φ.simplify ψ.simplify
    rw [simplify, size]
    omega
  | next φ ih =>
    rw [simplify]
    rcases nextOf_cases φ.simplify with same | same <;> simp only [same, size] <;> omega
  | eventually φ ih =>
    rw [simplify]
    rcases eventuallyOf_cases φ.simplify with same | same <;> simp only [same, size] <;> omega
  | always φ ih =>
    rw [simplify]
    rcases alwaysOf_cases φ.simplify with same | same <;> simp only [same, size] <;> omega
  | strongUntil φ ψ ihφ ihψ =>
    have bound := size_untilOf_le φ.simplify ψ.simplify
    rw [simplify, size]
    omega

end Size

section Calls

/-- Denies a simplified formula. Where the negation moves inward, the outcome is simplified
once more. -/
def denyBy (recur : Formula → Option Formula) : Formula → Option Formula
  | top => some bot
  | bot => some top
  | neg φ => some φ
  | next φ => recur (next (neg φ))
  | eventually φ => recur (always (neg φ))
  | always φ => recur (eventually (neg φ))
  | φ => some (neg φ)

/-- Joins simplified formulas. A premise of something false is denied, and that is simplified
once more. -/
def implyBy (recur : Formula → Option Formula) : Formula → Formula → Option Formula
  | bot, _ => some top
  | _, top => some top
  | top, ψ => some ψ
  | φ, bot => recur (neg φ)
  | φ, ψ => some (if φ = ψ then top else implies φ ψ)

/-- One call of simplification, with `recur` for the calls that it makes. A call that has no
answer leaves it without one. -/
def simplifyBy (recur : Formula → Option Formula) : Formula → Option Formula
  | bot => some bot
  | top => some top
  | atom i => some (atom i)
  | neg φ => (recur φ).bind (denyBy recur)
  | junction kind operands => (operands.mapM recur).map (junctionOf kind)
  | implies φ ψ => (recur φ).bind fun φ => (recur ψ).bind (implyBy recur φ)
  | next φ => (recur φ).map nextOf
  | eventually φ => (recur φ).map eventuallyOf
  | always φ => (recur φ).map alwaysOf
  | strongUntil φ ψ => (recur φ).bind fun φ => (recur ψ).map (untilOf φ)

/-- Simplification with calls within calls up to a depth. -/
def simplifyWithin : Nat → Formula → Option Formula
  | 0 => fun _ => none
  | depth + 1 => simplifyBy (simplifyWithin depth)

/-- Simplifying `φ` calls for `ψ`: it has no answer when every formula but `ψ` has one. -/
def Calls (φ ψ : Formula) : Prop :=
  simplifyBy (fun χ => if χ = ψ then none else some χ.simplify) φ = none

/-- A negation weighs more than another formula of its size, because a negation that is
moved inward leaves a formula of the same size. -/
def weight : Formula → Nat
  | neg φ => 2 * (neg φ).size + 1
  | φ => 2 * φ.size

variable {φ ψ : Formula} {recur : Formula → Option Formula}

theorem weight_le (φ : Formula) : φ.weight ≤ 2 * φ.size + 1 := by
  cases φ <;> simp only [weight, size] <;> omega

theorem le_weight (φ : Formula) : 2 * φ.size ≤ φ.weight := by
  cases φ <;> simp only [weight, size] <;> omega

theorem weight_lt_of_size_lt (smaller : φ.size < ψ.size) : φ.weight < ψ.weight := by
  have upper := weight_le φ
  have lower := le_weight ψ
  omega

theorem denyBy_eq (normal : Normal φ)
    (answers : ∀ χ, χ.weight < (neg φ).weight → recur χ = some χ.simplify) :
    denyBy recur φ = some (negationOf φ) := by
  have answered (χ : Formula) (small : χ.weight < (neg φ).weight)
      (same : χ.simplify = negationOf φ) : recur χ = some (negationOf φ) :=
    same ▸ answers χ small
  cases normal with
  | bot | top | atom | neg | junction | implies | strongUntil => rfl
  | next normal | eventually normal | always normal =>
    refine answered _ ?_ ?_
    · simp only [weight, size]
      omega
    · simp only [simplify, normal.simplify_eq, negationOf]

theorem implyBy_eq (normal : Normal φ) (answered : recur (neg φ) = some (neg φ).simplify)
    (ψ : Formula) : implyBy recur φ ψ = some (impliesOf φ ψ) := by
  rw [simplify, normal.simplify_eq] at answered
  fun_cases implyBy recur φ ψ with
  | case1 | case2 | case3 | case4 | case5 => simp_all [impliesOf]

theorem mapM_eq_some {xs : List Formula} (answers : ∀ φ ∈ xs, recur φ = some φ.simplify) :
    xs.mapM recur = some (xs.map simplify) := by
  induction xs with
  | nil => rfl
  | cons φ rest ih =>
    obtain ⟨first, others⟩ := List.forall_mem_cons.mp answers
    rw [List.mapM_cons, first, ih others]
    rfl

/-- A call answers the simplified formula if the lighter formulas have their answers. -/
theorem simplifyBy_eq (answers : ∀ ψ, ψ.weight < φ.weight → recur ψ = some ψ.simplify) :
    simplifyBy recur φ = some φ.simplify := by
  have below {ψ : Formula} (smaller : ψ.size < φ.size) : recur ψ = some ψ.simplify :=
    answers ψ (weight_lt_of_size_lt smaller)
  cases φ with
  | bot | top | atom => rfl
  | neg φ =>
    rw [simplifyBy, below (by simp only [size]; omega), Option.bind_some, simplify]
    refine denyBy_eq (normal_simplify φ) fun χ lighter => answers χ ?_
    have bound := size_simplify_le φ
    simp only [weight, size] at lighter ⊢
    omega
  | junction kind operands =>
    have each : operands.mapM recur = some (operands.map simplify) := by
      refine mapM_eq_some fun φ member => below ?_
      rw [size]
      exact Nat.lt_succ_of_le (size_le_sizeAll member)
    rw [simplifyBy, each, Option.map_some, simplify_junction]
  | implies φ ψ =>
    have bound := size_simplify_le φ
    have positive := size_pos ψ
    rw [simplifyBy, below (by simp only [size]; omega), Option.bind_some,
      below (by simp only [size]; omega), Option.bind_some, simplify]
    exact implyBy_eq (normal_simplify φ) (below (by simp only [size]; omega)) _
  | next φ | eventually φ | always φ =>
    rw [simplifyBy, below (by simp only [size]; omega), Option.map_some, simplify]
  | strongUntil φ ψ =>
    rw [simplifyBy, below (by simp only [size]; omega), Option.bind_some,
      below (by simp only [size]; omega), Option.map_some, simplify]

theorem Calls.weight_lt (calls : Calls φ ψ) : ψ.weight < φ.weight := by
  by_contra heavy
  have answered : simplifyBy (fun χ => if χ = ψ then none else some χ.simplify) φ =
      some φ.simplify := by
    refine simplifyBy_eq fun χ lighter => if_neg ?_
    rintro rfl
    exact heavy lighter
  rw [Calls, answered] at calls
  contradiction

theorem simplifyWithin_eq (depth : Nat) (enough : φ.weight ≤ depth + 1) :
    simplifyWithin depth φ = some φ.simplify := by
  induction depth generalizing φ with
  | zero =>
    have lower := le_weight φ
    have positive := size_pos φ
    omega
  | succ depth ih => exact simplifyBy_eq fun ψ lighter => ih (by omega)

/-- Simplification ends on every formula and makes none larger. Its calls, also those for
formulas that it makes of simplified parts, cannot go on for ever: they are for lighter and
lighter formulas, are at most twice as deep as the formula is large, and lead to the
simplified formula. -/
theorem simplify_terminates : WellFounded (fun ψ φ => Calls φ ψ) ∧
    ∀ φ : Formula, simplifyBy (fun ψ => some ψ.simplify) φ = some φ.simplify ∧
      (∀ more, simplifyWithin (2 * φ.size + more) φ = some φ.simplify) ∧
      φ.simplify.size ≤ φ.size := by
  refine ⟨?_, fun φ => ⟨?_, ?_, size_simplify_le φ⟩⟩
  · exact Subrelation.wf Calls.weight_lt (InvImage.wf weight Nat.lt_wfRel.wf)
  · exact simplifyBy_eq fun _ _ => rfl
  · intro more
    have upper := weight_le φ
    exact simplifyWithin_eq _ (by omega)

/-- The calls for `not F p`, of which the second is for a formula of the same size. -/
example : Calls (neg (eventually (atom 0))) (eventually (atom 0)) ∧
    Calls (neg (eventually (atom 0))) (always (neg (atom 0))) ∧
    ¬ Calls (neg (eventually (atom 0))) (atom 0) := by
  unfold Calls
  decide +kernel

end Calls

end TemporalRewards.Formula
