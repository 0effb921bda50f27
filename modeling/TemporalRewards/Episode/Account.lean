/-! The account of an episode: every reward is clipped, so that the running total
stays in a range, and then rounded to a number of decimal places. The arithmetic
is a parameter, so that the same account can be kept over other numbers. -/
namespace TemporalRewards

class Arithmetic (α : Type) extends Add α, Sub α, Mul α, Div α, LT α where
  zero : α
  ten : α
  one : α
  isFinite : α → Bool
  /-- The nearest whole number; a half goes away from zero. -/
  round : α → α
  decidableLT : DecidableRel (α := α) (· < ·)

instance Arithmetic.instDecidableLT {α : Type} [Arithmetic α] : DecidableRel (α := α) (· < ·) :=
  Arithmetic.decidableLT

namespace Arithmetic

variable {α : Type} [Arithmetic α]

/-- Multiplies `result` by the `n`-th power of `base`, by repeated squaring. -/
def powerOnto (result base : α) (n : Nat) : α :=
  let result := if n % 2 = 1 then result * base else result
  if h : n / 2 = 0 then result else powerOnto result (base * base) (n / 2)
termination_by n
decreasing_by omega

/-- Ten to a whole power; a negative power is the inverse of the positive one. -/
def powerOfTen (n : Int) : α :=
  let power : α := powerOnto one ten n.natAbs
  if n < 0 then one / power else power

end Arithmetic

/-- A range for the running total. -/
structure Clip (α : Type) where
  lowest : α
  highest : α

namespace Clip

variable {α : Type} [Arithmetic α]

/-- Lowers a reward that would carry the total past the top of the range. -/
def fromAbove (clip : Clip α) (total reward : α) : α :=
  if clip.highest < total + reward then
    if Arithmetic.isFinite clip.highest then clip.highest - total else Arithmetic.zero
  else reward

/-- Raises a reward that would carry the total past the bottom of the range. -/
def fromBelow (clip : Clip α) (total reward : α) : α :=
  if total + reward < clip.lowest then
    if Arithmetic.isFinite clip.lowest then clip.lowest - total else Arithmetic.zero
  else reward

/-- Rounds to a number of decimal places. -/
def roundTo (decimals : Int) (x : α) : α :=
  let scale : α := Arithmetic.powerOfTen decimals
  Arithmetic.round (x * scale) / scale

/-- The reward that is granted when `reward` is due. -/
def grant (clip : Clip α) (decimals : Int) (total reward : α) : α :=
  roundTo decimals (clip.fromBelow total (clip.fromAbove total reward))

end Clip

instance : Arithmetic Float where
  zero := 0.0
  one := 1.0
  ten := 10.0
  isFinite := Float.isFinite
  round := Float.round
  decidableLT := fun x y => inferInstanceAs (Decidable (x < y))

end TemporalRewards
