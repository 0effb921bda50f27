import TemporalRewards.Observation

/-! The bits of a packed observation. A list of truth values is read back from its
observation bit by bit, up to the capacity. -/
namespace TemporalRewards.Observation

/-- A write changes its own bit, if there is one. -/
theorem get_put (o : Observation) (index : Nat) (value : Bool) (i : Nat) :
    (o.put index value).get i = if i = index ∧ index < capacity then value else o.get i := by
  by_cases inside : i < capacity
  · by_cases same : i = index
    · subst same
      cases value <;> simp_all [put, get, capacity]
    · have bit : (1#64 <<< index).getLsbD i = false := by
        simp
        omega
      have wide : decide (i < 64) = true := decide_eq_true inside
      rw [if_neg fun own => same own.1]
      cases value with
      | false =>
        simp only [put, get, Bool.false_eq_true, if_false, BitVec.getLsbD_and, BitVec.getLsbD_not,
          bit, wide, Bool.not_false, Bool.and_true]
      | true => simp only [put, get, if_true, BitVec.getLsbD_or, bit, Bool.or_false]
  · have outside : ¬(i = index ∧ index < capacity) := by omega
    have beyond : 64 ≤ i := Nat.le_of_not_lt inside
    rw [if_neg outside, get, get, BitVec.getLsbD_of_ge _ _ beyond, BitVec.getLsbD_of_ge _ _ beyond]

/-- Truth values are stored from a bit upward, and the other bits stay. -/
theorem get_putAll {values : List Bool} (o : Observation) {index : Nat}
    (room : index + values.length ≤ capacity) (i : Nat) :
    (o.putAll index values).get i =
      if i < index then o.get i else (values[i - index]?).getD (o.get i) := by
  induction values generalizing o index with
  | nil => simp [putAll]
  | cons value rest ih =>
    rw [List.length_cons] at room
    rw [putAll, ih (o.put index value) (by omega), get_put]
    rcases Nat.lt_trichotomy i index with before | rfl | later
    · have apart : ¬(i = index ∧ index < capacity) := by omega
      rw [if_pos (Nat.lt_succ_of_lt before), if_pos before, if_neg apart]
    · have own : i = i ∧ i < capacity := by omega
      rw [if_pos (Nat.lt_succ_self i), if_pos own, if_neg (Nat.lt_irrefl i), Nat.sub_self,
        List.getElem?_cons_zero, Option.getD_some]
    · have apart : ¬(i = index ∧ index < capacity) := by omega
      have next : i - index = i - (index + 1) + 1 := by omega
      rw [if_neg (Nat.not_lt.mpr later), if_neg apart, if_neg (Nat.lt_asymm later), next,
        List.getElem?_cons_succ]

/-- Bit `i` is truth value `i` of those that there is room for. -/
theorem get_ofList (values : List Bool) (i : Nat) :
    (ofList values).get i = ((values.take capacity)[i]?).getD false := by
  have none : empty.get i = false := by simp [get, empty]
  have room : 0 + (values.take capacity).length ≤ capacity := by
    rw [List.length_take]
    omega
  rw [ofList, get_putAll empty room, if_neg (Nat.not_lt_zero i), Nat.sub_zero, none]

/-- Values that there is room for are read back in order. -/
theorem toList_ofList {values : List Bool} (room : values.length ≤ capacity) :
    (ofList values).toList values.length = values := by
  apply List.ext_getElem
  · simp [toList]
  · intro i _ inside
    simp [toList, get_ofList, List.take_of_length_le room, inside]

end TemporalRewards.Observation
