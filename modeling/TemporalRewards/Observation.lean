/-! An observation holds the truth values of up to 64 propositions at one tick.
Proposition `i` is bit `i` of a word; past the word every proposition is false. -/
namespace TemporalRewards

structure Observation where
  word : BitVec 64
deriving DecidableEq

/-- Why a write to an observation is refused. -/
inductive OutOfRange
  | index (index : Nat)
  | range (start stop : Nat)
deriving DecidableEq, Repr

def OutOfRange.message : OutOfRange → String
  | index i => s!"bit index {i} out of range"
  | range start stop => s!"bit range {start}..{stop} out of range"

namespace Observation

def capacity : Nat := 64

def empty : Observation := ⟨0⟩

def ofNat (n : Nat) : Observation := ⟨BitVec.ofNat 64 n⟩

def toNat (o : Observation) : Nat := o.word.toNat

instance : Ord Observation := ⟨fun left right => compare left.toNat right.toNat⟩

def get (o : Observation) (index : Nat) : Bool := o.word.getLsbD index

/-- The word with bit `index` replaced; the index is below the capacity. -/
def put (o : Observation) (index : Nat) (value : Bool) : Observation :=
  if value then ⟨o.word ||| (1#64 <<< index)⟩ else ⟨o.word &&& ~~~(1#64 <<< index)⟩

def set (o : Observation) (index : Nat) (value : Bool) : Except OutOfRange Observation :=
  if index < capacity then .ok (o.put index value) else .error (.index index)

/-- A word of `width` ones at the low end. -/
def mask (width : Nat) : BitVec 64 :=
  if width < capacity then (1#64 <<< width) - 1#64 else BitVec.allOnes 64

/-- The bits from `start` up to `stop`, moved to the low end. -/
def slice (o : Observation) (start stop : Nat) : BitVec 64 :=
  if start < stop ∧ start < capacity then (o.word >>> start) &&& mask (stop - start) else 0#64

/-- Overwrites the bits from `start` up to `stop` with the low bits of `value`
and answers the part of `value` that was stored. -/
def setSlice (o : Observation) (start stop : Nat) (value : BitVec 64) :
    Except OutOfRange (BitVec 64 × Observation) :=
  if stop ≤ capacity then
    if start < stop then
      let ones := mask (stop - start)
      let stored := value &&& ones
      .ok (stored, ⟨(o.word &&& ~~~(ones <<< start)) ||| (stored <<< start)⟩)
    else .ok (0#64, o)
  else .error (.range start stop)

def isEmpty (o : Observation) : Bool := o.word == 0#64

/-- The first `count` truth values. -/
def toList (o : Observation) (count : Nat) : List Bool := (List.range count).map o.get

def countTrue (o : Observation) : Nat := (o.toList capacity).count true

/-- Stores truth values from bit `index` upward. -/
def putAll (o : Observation) (index : Nat) : List Bool → Observation
  | [] => o
  | value :: rest => (o.put index value).putAll (index + 1) rest

/-- The first 64 truth values of a list, the head at bit 0. -/
def ofList (values : List Bool) : Observation := empty.putAll 0 (values.take capacity)

/-- Base-two digits, most significant first. -/
def digits (o : Observation) : String := String.ofList (Nat.toDigits 2 o.toNat)

def text (o : Observation) : String := "0b" ++ o.digits

/-- Base-two digits, padded with zeros to `width` places. -/
def padded (o : Observation) (width : Nat) : String :=
  String.ofList (List.replicate (width - o.digits.length) '0') ++ o.digits

end Observation

end TemporalRewards
