import TemporalRewards.Formula.Basic

/-! A total order on formulas: first by the head operator, in the order in which
the operators are declared, then by the parts, from left to right. Two formulas
compare as equal exactly when they are the same formula, so sorted lists of
operands are canonical. -/
namespace TemporalRewards.Formula

/-- The place of the head operator; conjunctions come before disjunctions. -/
def headRank : Formula → Nat
  | bot => 0
  | top => 1
  | atom _ => 2
  | neg _ => 3
  | junction .all _ => 4
  | junction .any _ => 5
  | implies _ _ => 6
  | next _ => 7
  | eventually _ => 8
  | always _ => 9
  | strongUntil _ _ => 10

mutual

def order (φ ψ : Formula) : Ordering :=
  (compare φ.headRank ψ.headRank).then
    (match φ, ψ with
      | atom i, atom j => compare i j
      | neg φ, neg ψ | next φ, next ψ | eventually φ, eventually ψ | always φ, always ψ => order φ ψ
      | implies φ φ', implies ψ ψ' | strongUntil φ φ', strongUntil ψ ψ' =>
        (order φ ψ).then (order φ' ψ')
      | junction _ φs, junction _ ψs => orderAll φs ψs
      | _, _ => .eq)

/-- The lexicographic order of operand lists; a proper start of a list is less. -/
def orderAll : List Formula → List Formula → Ordering
  | [], [] => .eq
  | [], _ :: _ => .lt
  | _ :: _, [] => .gt
  | φ :: φs, ψ :: ψs => (order φ ψ).then (orderAll φs ψs)

end

instance : Ord Formula := ⟨order⟩

mutual

/-- The formula as a list of numbers: each head operator is followed by its
parts, and a one stands before every operand of a junction. -/
def code (φ : Formula) : List Nat :=
  φ.headRank ::
    (match φ with
      | bot | top => []
      | atom i => [i]
      | neg φ | next φ | eventually φ | always φ => code φ
      | implies φ ψ | strongUntil φ ψ => code φ ++ code ψ
      | junction _ φs => codeAll φs)

def codeAll : List Formula → List Nat
  | [] => [0]
  | φ :: φs => 1 :: (code φ ++ codeAll φs)

end

mutual

theorem compare_code_append (φ ψ : Formula) (r s : List Nat) :
    compare (code φ ++ r) (code ψ ++ s) = (order φ ψ).then (compare r s) := by
  rw [code.eq_def φ, code.eq_def ψ, order.eq_def φ ψ, List.cons_append, List.cons_append,
    List.compare_cons_cons]
  by_cases heads : φ.headRank = ψ.headRank
  · cases φ <;> cases ψ
    all_goals try cases ‹Junction›
    all_goals try cases ‹Junction›
    all_goals
      first
      | (simp [headRank] at heads; done)
      | simp [compare_code_append, compareAll_code_append, Ordering.then_assoc]
  · have apart : compare φ.headRank ψ.headRank ≠ .eq := by simpa using heads
    revert apart
    cases compare φ.headRank ψ.headRank <;> simp

theorem compareAll_code_append : ∀ (φs ψs : List Formula) (r s : List Nat),
    compare (codeAll φs ++ r) (codeAll ψs ++ s) = (orderAll φs ψs).then (compare r s)
  | [], [], r, s => by simp [codeAll, orderAll, List.compare_cons_cons]
  | [], _ :: _, r, s => by
    have less : compare 0 1 = Ordering.lt := rfl
    simp [codeAll, orderAll, List.compare_cons_cons, less]
  | _ :: _, [], r, s => by
    have more : compare 1 0 = Ordering.gt := rfl
    simp [codeAll, orderAll, List.compare_cons_cons, more]
  | φ :: φs, ψ :: ψs, r, s => by
    simp [codeAll, orderAll, List.compare_cons_cons, compare_code_append, compareAll_code_append,
      Ordering.then_assoc]

end

/-- Formulas are ordered as their codes are. -/
theorem order_eq_compare_code (φ ψ : Formula) : order φ ψ = compare φ.code ψ.code := by
  have h := compare_code_append φ ψ [] []
  simpa using h.symm

mutual

theorem eq_of_order (φ ψ : Formula) (h : order φ ψ = .eq) : φ = ψ := by
  rw [order.eq_def, Ordering.then_eq_eq, Nat.compare_eq_eq] at h
  obtain ⟨heads, parts⟩ := h
  cases φ <;> cases ψ
  all_goals try cases ‹Junction›
  all_goals try cases ‹Junction›
  all_goals
    first
    | (simp [headRank] at heads; done)
    | simp [Ordering.then_eq_eq] at parts ⊢
  all_goals
    first
    | exact parts
    | exact eq_of_order _ _ parts
    | exact eq_of_orderAll _ _ parts
    | exact ⟨eq_of_order _ _ parts.1, eq_of_order _ _ parts.2⟩

theorem eq_of_orderAll : ∀ φs ψs : List Formula, orderAll φs ψs = .eq → φs = ψs
  | [], [], _ => rfl
  | φ :: φs, ψ :: ψs, h => by
    rw [orderAll, Ordering.then_eq_eq] at h
    rw [eq_of_order φ ψ h.1, eq_of_orderAll φs ψs h.2]

end

theorem compare_eq (φ ψ : Formula) : compare φ ψ = order φ ψ := rfl

instance : Std.TransOrd Formula where
  eq_swap := by
    intro φ ψ
    simp only [compare_eq, order_eq_compare_code]
    exact Std.OrientedCmp.eq_swap
  isLE_trans := by
    intro φ ψ χ
    simp only [compare_eq, order_eq_compare_code]
    exact Std.TransCmp.isLE_trans

instance : Std.LawfulEqOrd Formula where
  compare_self := by
    intro φ
    rw [compare_eq, order_eq_compare_code]
    exact Std.ReflCmp.compare_self
  eq_of_compare := by
    intro φ ψ h
    exact eq_of_order φ ψ h

instance : DecidableEq Formula := fun _ _ =>
  decidable_of_iff _ Std.LawfulEqOrd.compare_eq_iff_eq

end TemporalRewards.Formula
