/-! The shortest decimal that reads back as a given binary64 value. A positive
finite value is `m * 2 ^ q`; the reals that round to it form an interval around
it, closed when `m` is even. Decimal grids are tried from coarse to fine. The
first grid with a point in the interval wins, and of two such points the nearer. -/
namespace TemporalRewards.Decimal

/-- Which of two equally near decimals is taken. -/
inductive Tie
  | up
  | toEven
deriving DecidableEq, Repr

/-- A positive decimal `digits * 10 ^ exponent`. -/
structure Scientific where
  digits : Nat
  exponent : Int
deriving DecidableEq, Repr

/-- A value and the interval of reals that round to it, as numerators over one
denominator. -/
structure Interval where
  low : Nat
  value : Nat
  high : Nat
  denominator : Nat
  closed : Bool

/-- The interval of `m * 2 ^ q`. Below a power of two the gap is half as wide. -/
def Interval.ofBinary (m : Nat) (q : Int) (narrowBelow : Bool) : Interval :=
  let scale := Nat.pow 2 (q - 2).toNat
  { low := (4 * m - (if narrowBelow then 1 else 2)) * scale
    value := 4 * m * scale
    high := (4 * m + 2) * scale
    denominator := Nat.pow 2 (2 - q).toNat
    closed := m % 2 == 0 }

/-- The interval measured in units of `10 ^ k`. -/
def Interval.inUnits (i : Interval) (k : Int) : Interval :=
  let scale := Nat.pow 10 (-k).toNat
  { i with
    low := i.low * scale
    value := i.value * scale
    high := i.high * scale
    denominator := i.denominator * Nat.pow 10 k.toNat }

/-- Whether the whole number `d` lies in the interval. -/
def Interval.holds (i : Interval) (d : Nat) : Bool :=
  let n := d * i.denominator
  if i.closed then i.low ≤ n && n ≤ i.high else i.low < n && n < i.high

/-- The whole number in the interval that is nearest to its value. -/
def Interval.nearest? (i : Interval) (tie : Tie) : Option Nat :=
  let below := i.value / i.denominator
  let above := below + 1
  match i.holds below, i.holds above with
  | false, false => none
  | true, false => some below
  | false, true => some above
  | true, true =>
    match compare (2 * i.value) ((below + above) * i.denominator) with
    | .lt => some below
    | .gt => some above
    | .eq =>
      match tie with
      | .up => some above
      | .toEven => some (if below % 2 = 0 then below else above)

def digitCount (n : Nat) : Nat := (Nat.toDigits 10 n).length

/-- The exponent of the leading decimal digit of the value. -/
def Interval.leadingExponent (i : Interval) : Int :=
  let guess : Int := (digitCount i.value : Int) - digitCount i.denominator
  let scaled := i.inUnits guess
  if scaled.denominator ≤ scaled.value then guess else guess - 1

/-- Tries grids of one digit, two digits and so on. -/
def Interval.shortest (i : Interval) (tie : Tie) : Scientific :=
  let leading := i.leadingExponent
  let tried := (List.range 18).findSome? fun (n : Nat) =>
    let k := leading - n
    ((i.inUnits k).nearest? tie).map (Scientific.mk · k)
  tried.getD ⟨0, 0⟩

/-- Moves trailing zeros of the digits into the exponent. -/
def trimZeros : Nat → Scientific → Scientific
  | 0, s => s
  | bound + 1, s =>
    if s.digits ≠ 0 ∧ s.digits % 10 = 0 then trimZeros bound ⟨s.digits / 10, s.exponent + 1⟩ else s

/-- A binary64 value by kind; a finite one is `m * 2 ^ q` with a sign. -/
inductive Binary
  | notANumber
  | infinite (negative : Bool)
  | finite (negative : Bool) (m : Nat) (q : Int) (narrowBelow : Bool)

def Binary.ofBits (bits : Nat) : Binary :=
  let negative := bits / Nat.pow 2 63 % 2 == 1
  let biased : Nat := bits / Nat.pow 2 52 % Nat.pow 2 11
  let fraction : Nat := bits % Nat.pow 2 52
  if biased = 2047 then
    if fraction = 0 then .infinite negative else .notANumber
  else if biased = 0 then .finite negative fraction (-1074) false
  else
    .finite negative (Nat.pow 2 52 + fraction) ((biased : Int) - 1075) (fraction == 0 && 1 < biased)

def Binary.ofFloat (x : Float) : Binary := .ofBits x.toBits.toNat

end TemporalRewards.Decimal
