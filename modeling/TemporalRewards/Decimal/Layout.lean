import TemporalRewards.Decimal.Shortest

/-! Layouts for the text of a float: the digits are the shortest that read back,
and a record says how they are set. -/
namespace TemporalRewards.Decimal

/-- Where a layout keeps to positional digits, by the exponent of the leading
digit; outside it an exponent is written. -/
inductive Positional
  | always
  | between (lowest highest : Int)

structure Layout where
  tie : Tie
  positional : Positional
  /-- Whether a whole number in positional digits ends in `.0`. -/
  keepsPoint : Bool
  /-- The sign written before an exponent that is not negative. -/
  exponentPlus : String
  notANumber : String
  infinity : String

def Positional.allows : Positional → Int → Bool
  | always, _ => true
  | between lowest highest, e => lowest ≤ e && e ≤ highest

/-- Digits with a point set before the last `places` of them. -/
def withPoint (digits : List Char) (places : Nat) : List Char :=
  let padded := List.replicate (places + 1 - digits.length) '0' ++ digits
  let whole := padded.length - places
  padded.take whole ++ '.' :: padded.drop whole

def Layout.writePositional (layout : Layout) (s : Scientific) : List Char :=
  let digits := Nat.toDigits 10 s.digits
  if s.exponent < 0 then withPoint digits (-s.exponent).toNat
  else
    digits ++ List.replicate s.exponent.toNat '0' ++ (if layout.keepsPoint then ".0".toList else [])

def Layout.writeExponent (layout : Layout) (s : Scientific) (leading : Int) : List Char :=
  let digits := Nat.toDigits 10 s.digits
  let mantissa :=
    match digits with
    | first :: second :: rest => first :: '.' :: second :: rest
    | digits => digits
  let sign := if leading < 0 then "-" else layout.exponentPlus
  mantissa ++ 'e' :: (sign.toList ++ Nat.toDigits 10 leading.natAbs)

def Layout.writePositive (layout : Layout) (m : Nat) (q : Int) (narrowBelow : Bool) : List Char :=
  let s := trimZeros 20 ((Interval.ofBinary m q narrowBelow).shortest layout.tie)
  let leading := s.exponent + digitCount s.digits - 1
  if layout.positional.allows leading then layout.writePositional s else layout.writeExponent s leading

/-- The text of a float in a layout. The sign of zero is kept. -/
def Layout.text (layout : Layout) (x : Float) : String :=
  let signed (negative : Bool) (text : String) := if negative then "-" ++ text else text
  match Binary.ofFloat x with
  | .notANumber => layout.notANumber
  | .infinite negative => signed negative layout.infinity
  | .finite negative 0 _ _ => signed negative (if layout.keepsPoint then "0.0" else "0")
  | .finite negative m q narrowBelow =>
    signed negative (String.ofList (layout.writePositive m q narrowBelow))

/-- Values in running text: positional throughout, whole numbers without a point. -/
def plain : Layout := ⟨.up, .always, false, "", "NaN", "inf"⟩

/-- Values in structural dumps: with a point, and with an exponent for very small
and very large values. -/
def dump : Layout := ⟨.up, .between (-4) 15, true, "", "NaN", "inf"⟩

/-- Numbers in data documents; these have no form for values that are not finite. -/
def document : Layout := ⟨.toEven, .between (-5) 15, true, "+", "null", "null"⟩

end TemporalRewards.Decimal
