import Mathlib.Data.List.Destutter
import TemporalRewards.Proofs.Formula.Progression

/-! Junctions put together by sorting and halving. Operands that are sorted with their
repetitions, of which one is kept wherever neighbours are equal, are the distinct operands
in increasing order, and halving such a list again and again finds exactly its elements. So
what a junction is simplified to is told by which operands it has. All of this rests on the
laws of the order: it is total, and only equal formulas compare as equal. -/
namespace TemporalRewards.Formula

/-- The order of formulas as a test for sorting. -/
def atMost (φ ψ : Formula) : Bool := (compare φ ψ).isLE

/-- The operands in order, with one kept of equal neighbours. -/
def sortedOnce (operands : List Formula) : List Formula :=
  (operands.mergeSort atMost).destutter (· ≠ ·)

/-- Whether a list that is halved again and again comes down to the formula. The part from
the middle on stays, unless the formula in the middle is greater already. -/
def bisects (φ : Formula) (window : List Formula) : Bool :=
  if several : 2 ≤ window.length then
    let middle := window.length / 2
    have inside : middle < window.length := by omega
    if compare window[middle] φ = .gt then
      bisects φ (window.take (window.length - middle))
    else bisects φ (window.drop middle)
  else window.any fun ψ => compare ψ φ = .eq
termination_by window.length
decreasing_by
  · rw [List.length_take]
    omega
  · rw [List.length_drop]
    omega

/-- Whether halving finds an operand beside its own negation. -/
def bisectsComplement (operands : List Formula) : Bool :=
  operands.any fun
    | neg φ => bisects φ operands
    | _ => false

/-- A junction whose operands are sorted before repetitions are left out, and in which
complements are searched for by halving. -/
def junctionBySearch (kind : Junction) (operands : List Formula) : Formula :=
  let flat := operands.flatMap kind.parts
  if flat.contains kind.absorbing then kind.absorbing
  else
    let kept := sortedOnce (flat.filter (· != kind.identity))
    if bisectsComplement kept then kind.absorbing else closeJunction kind kept

section Order

variable {φ ψ : Formula}

theorem atMost_trans (φ ψ χ : Formula) (first : atMost φ ψ) (second : atMost ψ χ) :
    atMost φ χ :=
  Std.TransCmp.isLE_trans first second

theorem atMost_antisymm (first : atMost φ ψ) (second : atMost ψ φ) : φ = ψ :=
  Std.LawfulEqOrd.eq_of_compare (Std.OrientedCmp.isLE_antisymm first second)

theorem atMost_total (φ ψ : Formula) : atMost φ ψ || atMost ψ φ := by
  have swapped : compare ψ φ = (compare φ ψ).swap := Std.OrientedCmp.eq_swap
  rw [atMost, atMost, swapped]
  cases compare φ ψ <;> rfl

theorem lt_of_atMost_of_ne (below : atMost φ ψ) (apart : φ ≠ ψ) : compare φ ψ = .lt := by
  rcases Ordering.isLE_iff_eq_lt_or_eq_eq.mp below with less | equal
  · exact less
  · exact absurd (Std.LawfulEqOrd.eq_of_compare equal) apart

end Order

section Lists

variable {φ : Formula} {xs operands window : List Formula}

theorem pairwise_atMost (operands : List Formula) :
    (operands.mergeSort atMost).Pairwise fun φ ψ => atMost φ ψ :=
  List.pairwise_mergeSort atMost_trans atMost_total operands

/-- Equal elements of a sorted list are neighbours, so that no repetition is left. -/
theorem sortedOnce_eq_dedup (operands : List Formula) :
    sortedOnce operands = (operands.mergeSort atMost).dedup := by
  have antisymm : Std.Antisymm fun φ ψ : Formula => atMost φ ψ = true :=
    ⟨fun _ _ => atMost_antisymm⟩
  exact (pairwise_atMost operands).destutter_eq_dedup

theorem mem_sortedOnce : φ ∈ sortedOnce operands ↔ φ ∈ operands := by
  rw [sortedOnce_eq_dedup, List.mem_dedup, List.mem_mergeSort]

theorem increasing_sortedOnce (operands : List Formula) : Increasing (sortedOnce operands) := by
  have ordered := (pairwise_atMost operands).sublist (List.dedup_sublist _)
  have distinct := List.nodup_dedup (operands.mergeSort atMost)
  rw [sortedOnce_eq_dedup]
  exact (ordered.and distinct).imp fun ⟨below, apart⟩ => lt_of_atMost_of_ne below apart

/-- Sorting first and leaving out repetitions then is the same as inserting one by one. -/
theorem sortedOnce_eq (operands : List Formula) : sortedOnce operands = sortOperands operands := by
  apply (increasing_sortedOnce operands).eq_of_mem_iff (increasing_sortOperands operands)
  intro φ
  exact mem_sortedOnce.trans mem_sortOperands.symm

/-- The elements of an increasing list compare as their places do. -/
theorem Increasing.compare_getElem (increasing : Increasing xs) {i j : Nat} (hi : i < xs.length)
    (hj : j < xs.length) : compare xs[i] xs[j] = compare i j := by
  rcases Nat.lt_trichotomy i j with before | rfl | behind
  · rw [Nat.compare_eq_lt.mpr before]
    exact List.pairwise_iff_getElem.mp increasing i j hi hj before
  · rw [Nat.compare_eq_eq.mpr rfl]
    exact Std.ReflCmp.compare_self
  · rw [Nat.compare_eq_gt.mpr behind]
    exact Std.OrientedCmp.gt_of_lt (List.pairwise_iff_getElem.mp increasing j i hj hi behind)

/-- In an increasing list halving finds exactly the elements. -/
theorem bisects_iff (increasing : Increasing window) : bisects φ window = true ↔ φ ∈ window := by
  fun_induction bisects φ window with
  | case1 window several middle inside greater ih =>
    rw [ih (increasing.sublist (List.take_sublist _ _))]
    refine ⟨List.mem_of_mem_take, ?_⟩
    intro member
    obtain ⟨i, hi, rfl⟩ := List.getElem_of_mem member
    -- Its place is before the middle; of an odd number the middle stays in the window as well.
    rw [increasing.compare_getElem inside hi, Nat.compare_eq_gt] at greater
    exact List.mem_take_iff_getElem.mpr ⟨i, by omega, rfl⟩
  | case2 window several middle inside reached ih =>
    rw [ih (increasing.sublist (List.drop_sublist _ _))]
    refine ⟨List.mem_of_mem_drop, ?_⟩
    intro member
    obtain ⟨i, hi, rfl⟩ := List.getElem_of_mem member
    rw [increasing.compare_getElem inside hi, Nat.compare_eq_gt] at reached
    exact List.mem_drop_iff_getElem.mpr ⟨i - middle, by omega, by congr 1; omega⟩
  | case3 window single =>
    simp only [List.any_eq_true, decide_eq_true_eq, Std.LawfulEqOrd.compare_eq_iff_eq,
      exists_eq_right]

/-- Out of order, an element may stand in the part that is given up. -/
example : bisects (atom 1) [atom 1, atom 0, atom 0] = false := by cbv

theorem bisectsComplement_eq (increasing : Increasing operands) :
    bisectsComplement operands = hasComplement operands := by
  unfold bisectsComplement hasComplement
  congr 1
  funext φ
  cases φ with
  | neg φ => exact Bool.eq_iff_iff.mpr ((bisects_iff increasing).trans List.contains_iff_mem.symm)
  | _ => rfl

end Lists

section Junctions

variable {kind : Junction} {φ : Formula} {operands kept : List Formula}

/-- Sorting and halving make the junction that inserting and looking through all operands do. -/
theorem junctionBySearch_eq (kind : Junction) (operands : List Formula) :
    junctionBySearch kind operands = junctionOf kind operands := by
  unfold junctionBySearch junctionOf
  simp only [sortedOnce_eq, bisectsComplement_eq (increasing_sortOperands _)]

/-- In a normal formula no negation stands in front of a constant. -/
theorem Normal.ne_identity (normal : Normal φ.neg) (kind : Junction) : φ ≠ kind.identity := by
  rintro rfl
  cases normal with
  | neg _ stays => cases kind <;> simp [Junction.identity, negationOf] at stays

/-- Operands contradict each other after the identity is left out if they did before. -/
theorem absorbed_iff (normal : ∀ φ ∈ operands, Normal φ) : Absorbed kind operands ↔
    kind.absorbing ∈ operands.flatMap kind.parts ∨
      ∃ φ ∈ operands.flatMap kind.parts, neg φ ∈ operands.flatMap kind.parts := by
  apply or_congr_right
  rw [hasComplement_iff]
  constructor
  · rintro ⟨φ, negated, plain⟩
    exact ⟨φ, (mem_keptOperands.mp plain).1, (mem_keptOperands.mp negated).1⟩
  · rintro ⟨φ, plain, negated⟩
    -- Simplified operands have no negated constant, so neither of the two is left out.
    have proper := (normal_of_mem_flat normal negated).1.ne_identity kind
    have other : φ.neg ≠ kind.identity := by cases kind <;> simp [Junction.identity]
    exact ⟨φ, mem_keptOperands.mpr ⟨negated, other⟩, mem_keptOperands.mpr ⟨plain, proper⟩⟩

theorem closeJunction_ne_absorbing (undecided : kind.absorbing ∉ kept) :
    closeJunction kind kept ≠ kind.absorbing := by
  match kept with
  | [] => exact (absorbing_ne_identity kind).symm
  | [φ] => exact fun same => undecided (List.mem_singleton.mpr same.symm)
  | _ :: _ :: _ => cases kind <;> simp [closeJunction, Junction.absorbing]

theorem junctionOf_eq_absorbing_iff :
    junctionOf kind operands = kind.absorbing ↔ Absorbed kind operands := by
  refine ⟨?_, junctionOf_of_absorbed⟩
  contrapose
  intro proper
  rw [junctionOf_of_not_absorbed proper]
  exact closeJunction_ne_absorbing fun member => proper (Or.inl (mem_keptOperands.mp member).1)

/-- Simplifying a junction is exact. Let `xs` be the simplified operands, where those that are
junctions of the same kind give their operands in their place. The outcome is the constant
that decides the junction just if `xs` has it or has a formula and its negation. Otherwise
exactly the elements of `xs` other than the identity are kept, each once and in strictly
increasing order, and the outcome is the identity for none, the operand for one, and their
junction for more. Sorting before repetitions are left out, and searching for complements by
halving, leads to the same outcome. For the order is total, and formulas compare as equal
only if they are the same. -/
theorem simplify_junction_exact (kind : Junction) (operands : List Formula) :
    let xs := (operands.map simplify).flatMap kind.parts
    let outcome := (junction kind operands).simplify
    (outcome = kind.absorbing ↔ kind.absorbing ∈ xs ∨ ∃ φ ∈ xs, neg φ ∈ xs) ∧
      (outcome ≠ kind.absorbing → ∃ kept, Increasing kept ∧
        (∀ φ, φ ∈ kept ↔ φ ∈ xs ∧ φ ≠ kind.identity) ∧
        outcome = match kept with
          | [] => kind.identity
          | [φ] => φ
          | several => junction kind several) ∧
      junctionBySearch kind (operands.map simplify) = outcome ∧
      (∀ φ ψ : Formula, compare φ ψ = .eq ↔ φ = ψ) ∧
      (∀ φ ψ : Formula, compare ψ φ = (compare φ ψ).swap) ∧
      ∀ φ ψ χ : Formula, compare φ ψ = .lt → compare ψ χ = .lt → compare φ χ = .lt := by
  intro xs outcome
  have made : outcome = junctionOf kind (operands.map simplify) := simplify_junction kind operands
  have normal : ∀ φ ∈ operands.map simplify, Normal φ :=
    List.forall_mem_map.mpr fun φ _ => normal_simplify φ
  have decided : outcome = kind.absorbing ↔ Absorbed kind (operands.map simplify) := by
    rw [made, junctionOf_eq_absorbing_iff]
  refine ⟨decided.trans (absorbed_iff normal), ?_, (junctionBySearch_eq kind _).trans made.symm,
    fun φ ψ => Std.LawfulEqOrd.compare_eq_iff_eq, fun φ ψ => Std.OrientedCmp.eq_swap,
    fun φ ψ χ => Std.TransCmp.lt_trans⟩
  intro undecided
  refine ⟨keptOperands kind (operands.map simplify), increasing_sortOperands _,
    fun φ => mem_keptOperands, ?_⟩
  rw [made, junctionOf_of_not_absorbed (mt decided.mpr undecided)]
  rcases keptOperands kind (operands.map simplify) with _ | ⟨φ, _ | ⟨ψ, rest⟩⟩ <;> rfl

/-- Of `(b and a) and true and a and not F not c` the operands `a`, `b` and `G c` are kept,
in this order. -/
theorem simplify_junction_exact_regrouped :
    let operands := [and (atom 1) (atom 0), top, atom 0, neg (eventually (neg (atom 2)))]
    ((junction .all operands).simplify ≠ bot ∧
      (junction .all operands).simplify = junction .all [atom 0, atom 1, always (atom 2)]) ∧
    compare (atom 0) (atom 1) = .lt ∧ compare (atom 1) (always (atom 2)) = .lt ∧
      compare (atom 0) (always (atom 2)) = .lt := by
  intro operands
  have undecided : (junction .all operands).simplify ≠ bot := by decide +kernel
  have first : compare (atom 0) (atom 1) = .lt := by decide +kernel
  have second : compare (atom 1) (always (atom 2)) = .lt := by decide +kernel
  obtain ⟨_, keeps, _, _, _, transitive⟩ := simplify_junction_exact .all operands
  obtain ⟨kept, increasing, members, same⟩ := keeps undecided
  have flat : (operands.map simplify).flatMap Junction.all.parts =
      [atom 0, atom 1, top, atom 0, always (atom 2)] := by decide +kernel
  have sorted : Increasing [atom 0, atom 1, always (atom 2)] := by
    unfold Increasing
    decide +kernel
  have known : kept = [atom 0, atom 1, always (atom 2)] := by
    refine increasing.eq_of_mem_iff sorted fun φ => (members φ).trans ?_
    rw [flat]
    simp only [List.mem_cons, List.not_mem_nil, or_false, Junction.identity]
    grind
  subst known
  exact ⟨⟨undecided, same⟩, first, second, transitive _ _ _ first second⟩

end Junctions

end TemporalRewards.Formula
