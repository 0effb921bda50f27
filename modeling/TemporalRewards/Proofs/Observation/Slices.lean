import Mathlib.Data.Nat.Bitwise
import TemporalRewards.Proofs.Labelling.Packing

/-! Slices of an observation, bit by bit. A slice that is read shows the bits of its
range, one that is written changes these bits and no other, and neither shifts a word
by its whole width or more. A list and the observation that it is collected into hold
the same truth values, as far as there is room. -/
namespace TemporalRewards.Observation

variable {o : Observation} {start stop : Nat} {value : BitVec 64}

theorem ext_get {left right : Observation} (same : ∀ i, left.get i = right.get i) :
    left = right := by
  obtain ⟨word⟩ := left
  obtain ⟨other⟩ := right
  exact congrArg mk (BitVec.eq_of_getLsbD_eq fun i _ => same i)

theorem get_of_ge {i : Nat} (beyond : capacity ≤ i) : o.get i = false :=
  BitVec.getLsbD_of_ge o.word i beyond

theorem toNat_mask {width : Nat} (inside : width < capacity) :
    (mask width).toNat = 2 ^ width - 1 := by
  have power : 2 ^ width < 2 ^ 64 := Nat.pow_lt_pow_right (by decide) inside
  have positive : 0 < 2 ^ width := Nat.two_pow_pos width
  have one : (1#64 <<< width).toNat = 2 ^ width := by
    rw [BitVec.toNat_shiftLeft, BitVec.toNat_ofNat, Nat.one_mod, Nat.shiftLeft_eq, Nat.one_mul,
      Nat.mod_eq_of_lt power]
  rw [mask, if_pos inside, BitVec.toNat_sub_of_le, one]
  · rfl
  · rw [BitVec.le_def, one]
    exact positive

theorem getLsbD_mask (width i : Nat) :
    (mask width).getLsbD i = (decide (i < width) && decide (i < capacity)) := by
  by_cases inside : width < capacity
  · rw [BitVec.getLsbD, toNat_mask inside, Nat.testBit_two_pow_sub_one]
    grind
  · rw [mask, if_neg inside, BitVec.getLsbD_allOnes]
    grind [capacity]

/-- A value under a mask is the value modulo the power of two of the width. -/
theorem toNat_and_mask (value : BitVec 64) (width : Nat) :
    (value &&& mask width).toNat = value.toNat % 2 ^ width := by
  apply Nat.eq_of_testBit_eq
  intro i
  rw [Nat.testBit_mod_two_pow]
  change (value &&& mask width).getLsbD i = (decide (i < width) && value.getLsbD i)
  rw [BitVec.getLsbD_and, getLsbD_mask]
  by_cases inside : i < capacity
  · grind
  · have beyond : value.getLsbD i = false :=
      BitVec.getLsbD_of_ge value i (Nat.le_of_not_lt inside)
    grind

/-- Each bit of a slice is the bit of the observation that it comes from. -/
theorem getLsbD_slice (o : Observation) (start stop j : Nat) :
    (o.slice start stop).getLsbD j = (decide (start + j < stop) && o.get (start + j)) := by
  unfold slice
  split
  · rw [BitVec.getLsbD_and, BitVec.getLsbD_ushiftRight, getLsbD_mask, ← get]
    by_cases inside : start + j < capacity
    · grind
    · have beyond : o.get (start + j) = false := get_of_ge (Nat.le_of_not_lt inside)
      grind
  · rename_i outside
    have nothing : start + j < stop → o.get (start + j) = false := by
      intro within
      exact get_of_ge (by omega)
    rw [BitVec.getLsbD_zero]
    grind

/-- A slice that is written takes its bits from the value, and the other bits stay. -/
theorem get_setSlice (room : stop ≤ capacity) (inside : start < stop) (i : Nat) :
    get ⟨(o.word &&& ~~~(mask (stop - start) <<< start)) |||
        ((value &&& mask (stop - start)) <<< start)⟩ i =
      if start ≤ i ∧ i < stop then value.getLsbD (i - start) else o.get i := by
  unfold get
  rw [BitVec.getLsbD_or, BitVec.getLsbD_and, BitVec.getLsbD_not, BitVec.getLsbD_shiftLeft,
    BitVec.getLsbD_shiftLeft, BitVec.getLsbD_and, getLsbD_mask]
  by_cases known : i < capacity
  · have below : i - start < capacity := by omega
    grind [capacity]
  · have beyond : o.word.getLsbD i = false := get_of_ge (Nat.le_of_not_lt known)
    grind [capacity]

/-! The operations once more, with shifts that have no result where a word is moved by
its whole width or more. -/

def shiftedLeft? (word : BitVec 64) (places : Nat) : Option (BitVec 64) :=
  if places < capacity then some (word <<< places) else none

def shiftedRight? (word : BitVec 64) (places : Nat) : Option (BitVec 64) :=
  if places < capacity then some (word >>> places) else none

def mask? (width : Nat) : Option (BitVec 64) :=
  if width < capacity then (shiftedLeft? 1#64 width).map (· - 1#64) else some (BitVec.allOnes 64)

def get? (o : Observation) (index : Nat) : Option Bool :=
  if index < capacity then (shiftedRight? o.word index).map fun word => word &&& 1#64 == 1#64
  else some false

def put? (o : Observation) (index : Nat) (value : Bool) : Option Observation :=
  (shiftedLeft? 1#64 index).map fun one =>
    if value then ⟨o.word ||| one⟩ else ⟨o.word &&& ~~~one⟩

def slice? (o : Observation) (start stop : Nat) : Option (BitVec 64) :=
  if start < stop ∧ start < capacity then do
    let moved ← shiftedRight? o.word start
    let ones ← mask? (stop - start)
    some (moved &&& ones)
  else some 0#64

def setSlice? (o : Observation) (start stop : Nat) (value : BitVec 64) :
    Option (Except OutOfRange (BitVec 64 × Observation)) :=
  if stop ≤ capacity then
    if start < stop then do
      let ones ← mask? (stop - start)
      let stored := value &&& ones
      let cleared ← shiftedLeft? ones start
      let moved ← shiftedLeft? stored start
      some (.ok (stored, ⟨(o.word &&& ~~~cleared) ||| moved⟩))
    else some (.ok (0#64, o))
  else some (.error (.range start stop))

def toList? (o : Observation) (count : Nat) : Option (List Bool) := (List.range count).mapM o.get?

def putAll? (o : Observation) (index : Nat) : List Bool → Option Observation
  | [] => some o
  | value :: rest => do
    let o ← o.put? index value
    o.putAll? (index + 1) rest

def ofList? (values : List Bool) : Option Observation := empty.putAll? 0 (values.take capacity)

theorem mask?_eq_some (width : Nat) : mask? width = some (mask width) := by
  unfold mask? mask
  split
  · rename_i inside
    rw [shiftedLeft?, if_pos inside, Option.map_some]
  · rfl

theorem get?_eq_some (o : Observation) (index : Nat) : o.get? index = some (o.get index) := by
  unfold get?
  split
  · rename_i inside
    have bit : (o.word >>> index &&& 1#64 == 1#64) = o.get index := by
      rw [BitVec.and_one_eq_setWidth_ofBool_getLsbD, BitVec.getLsbD_ushiftRight, Nat.add_zero, get]
      cases o.word.getLsbD index <;> rfl
    rw [shiftedRight?, if_pos inside, Option.map_some, bit]
  · rename_i beyond
    rw [get_of_ge (Nat.le_of_not_lt beyond)]

theorem put?_eq_some {index : Nat} (inside : index < capacity) (value : Bool) :
    o.put? index value = some (o.put index value) := by
  rw [put?, shiftedLeft?, if_pos inside, Option.map_some, put]

theorem slice?_eq_some (o : Observation) (start stop : Nat) :
    o.slice? start stop = some (o.slice start stop) := by
  unfold slice? slice
  split
  · rename_i inside
    rw [shiftedRight?, if_pos inside.2, mask?_eq_some]
    rfl
  · rfl

theorem setSlice?_eq_some (o : Observation) (start stop : Nat) (value : BitVec 64) :
    o.setSlice? start stop value = some (o.setSlice start stop value) := by
  unfold setSlice? setSlice
  split
  · split
    · have inside : start < capacity := by omega
      rw [mask?_eq_some]
      simp only [shiftedLeft?, if_pos inside]
      rfl
    · rfl
  · rfl

theorem toList?_eq_some (o : Observation) (count : Nat) :
    o.toList? count = some (o.toList count) := by
  have total : o.get? = fun i => some (o.get i) := funext (get?_eq_some o)
  rw [toList?, toList, total]
  exact List.mapM_pure

theorem putAll?_eq_some {values : List Bool} (o : Observation) {index : Nat}
    (room : index + values.length ≤ capacity) :
    o.putAll? index values = some (o.putAll index values) := by
  induction values generalizing o index with
  | nil => rfl
  | cons value rest ih =>
    rw [List.length_cons] at room
    have inside : index < capacity := by omega
    rw [putAll?, put?_eq_some inside, Option.bind_eq_bind, Option.bind_some, ih _ (by omega), putAll]

theorem ofList?_eq_some (values : List Bool) : ofList? values = some (ofList values) := by
  refine putAll?_eq_some empty ?_
  rw [Nat.zero_add, List.length_take]
  exact Nat.min_le_left capacity values.length

/-- What a list holds of truth values is read back, with false for those that it lacks. -/
theorem toList_ofList_eq (values : List Bool) (count : Nat) :
    (ofList values).toList count =
      (values.take capacity ++ List.replicate count false).take count := by
  apply List.ext_getElem?
  intro i
  by_cases inside : i < count
  · have padding : (List.replicate count false)[i - (values.take capacity).length]? = some false := by
      rw [List.getElem?_replicate, if_pos (by omega)]
    rw [toList, List.getElem?_map, List.getElem?_range inside, Option.map_some, get_ofList,
      List.getElem?_take_of_lt inside, List.getElem?_append]
    split
    · rename_i known
      rw [List.getElem?_eq_getElem known, Option.getD_some]
    · rename_i missing
      rw [List.getElem?_eq_none (Nat.le_of_not_lt missing), padding, Option.getD_none]
  · have beyond : count ≤ i := Nat.le_of_not_lt inside
    rw [List.getElem?_eq_none (by simpa [toList] using beyond),
      List.getElem?_eq_none (by simp; omega)]

/-- An observation is the one that its truth values are collected into. -/
theorem ofList_toList (o : Observation) : ofList (o.toList capacity) = o := by
  apply ext_get
  intro i
  have whole : (o.toList capacity).take capacity = o.toList capacity :=
    List.take_of_length_le (by simp [toList])
  rw [get_ofList, whole, toList, List.getElem?_map]
  by_cases inside : i < capacity
  · rw [List.getElem?_range inside, Option.map_some, Option.getD_some]
  · have beyond : capacity ≤ i := Nat.le_of_not_lt inside
    rw [List.getElem?_eq_none (by simpa using beyond), Option.map_none, Option.getD_none,
      get_of_ge beyond]

/-- What writing a slice stores, and what it leaves of the observation. -/
theorem setSlice_eq_ok (o : Observation) (start : Nat) (value : BitVec 64)
    (room : stop ≤ capacity) :
    ∃ stored after, o.setSlice start stop value = .ok (stored, after) ∧
      stored.toNat = value.toNat % 2 ^ (stop - start) ∧
      ∀ i, after.get i = if start ≤ i ∧ i < stop then value.getLsbD (i - start) else o.get i := by
  rw [setSlice, if_pos room]
  split
  · rename_i inside
    exact ⟨_, _, rfl, toNat_and_mask value (stop - start), get_setSlice room inside⟩
  · rename_i nothing
    have width : stop - start = 0 := by omega
    refine ⟨_, _, rfl, ?_, fun i => (if_neg (by omega)).symm⟩
    rw [width, Nat.pow_zero, Nat.mod_one]
    rfl

/-- After the bits of a range were replaced by those of a value, the slice shows them. -/
theorem slice_eq_of_get {after : Observation} {stored : BitVec 64}
    (portion : stored.toNat = value.toNat % 2 ^ (stop - start))
    (bits : ∀ i, after.get i = if start ≤ i ∧ i < stop then value.getLsbD (i - start) else o.get i) :
    after.slice start stop = stored := by
  apply BitVec.eq_of_getLsbD_eq
  intro j _
  have low : stored.getLsbD j = (decide (j < stop - start) && value.getLsbD j) := by
    rw [BitVec.getLsbD, portion, Nat.testBit_mod_two_pow]
    rfl
  rw [getLsbD_slice, bits, low, Nat.add_sub_cancel_left]
  grind

/-- Slices agree with single bits. A slice has the bits of its range, where bits past the
word are false. Writing a slice replaces the bits of its range by the low bits of a value
and answers these, which is what the slice then reads; an empty or reversed range answers
zero and changes nothing. Whatever is read, written or collected, each shift is by less than
the width of the word. A list that is collected is read back, up to the room that there is
and with false for what it lacks, and an observation is collected from its own bits. -/
theorem slices_bitwise (o : Observation) (start stop : Nat) (value : BitVec 64)
    (values : List Bool) (count : Nat) :
    (∀ j, (o.slice start stop).getLsbD j = (decide (start + j < stop) && o.get (start + j))) ∧
    (∀ i, capacity ≤ i → o.get i = false) ∧
    (stop ≤ capacity → ∃ stored after, o.setSlice start stop value = .ok (stored, after) ∧
      (∀ i, after.get i = if start ≤ i ∧ i < stop then value.getLsbD (i - start) else o.get i) ∧
      stored.toNat = value.toNat % 2 ^ (stop - start) ∧
      after.slice start stop = stored ∧
      (stop ≤ start → stored = 0#64 ∧ after = o)) ∧
    ((∀ i, o.get? i = some (o.get i)) ∧
      o.slice? start stop = some (o.slice start stop) ∧
      o.setSlice? start stop value = some (o.setSlice start stop value) ∧
      o.toList? count = some (o.toList count) ∧
      ofList? values = some (ofList values)) ∧
    (ofList values).toList count =
      (values.take capacity ++ List.replicate count false).take count ∧
    ofList (o.toList capacity) = o := by
  refine ⟨getLsbD_slice o start stop, fun i => get_of_ge, ?_, ?_,
    toList_ofList_eq values count, ofList_toList o⟩
  · intro room
    obtain ⟨stored, after, written, portion, bits⟩ := setSlice_eq_ok o start value room
    refine ⟨stored, after, written, bits, portion, ?_, ?_⟩
    · exact slice_eq_of_get portion bits
    · intro nothing
      have width : stop - start = 0 := by omega
      refine ⟨BitVec.eq_of_toNat_eq ?_, ext_get fun i => (bits i).trans (if_neg (by omega))⟩
      rw [portion, width, Nat.pow_zero, Nat.mod_one]
      rfl
  · exact ⟨get?_eq_some o, slice?_eq_some o start stop, setSlice?_eq_some o start stop value,
      toList?_eq_some o count, ofList?_eq_some values⟩

/-- The last two bits of a word can be written and read, although their range ends where the
word does; of a value of three bits the low two are stored. -/
theorem slices_bitwise_last : 64 ≤ capacity ∧
    ∃ after, empty.setSlice 62 64 6#64 = .ok (2#64, after) ∧
      after.get 62 = false ∧ after.get 63 = true ∧ after.slice 62 64 = 2#64 := by
  obtain ⟨_, _, written, _⟩ := slices_bitwise empty 62 64 6#64 [] 0
  obtain ⟨stored, after, eq, bits, portion, read, _⟩ := written (by decide)
  have two : stored = 2#64 := BitVec.eq_of_toNat_eq portion
  subst two
  exact ⟨by decide, after, eq, bits 62, bits 63, read⟩

end TemporalRewards.Observation
