import TemporalRewards.Json.Tree

/-! Reading the text of a data document. A whole number that fits in 64 bits is
an integer, except minus zero. Any other number is a float: its leading digits,
as many as fit in 64 bits, are multiplied or divided by a power of ten. -/
namespace TemporalRewards.JsonReader

def isBlank (c : Char) : Bool := c == ' ' || c == '\t' || c == '\n' || c == '\r'

def skipBlanks (cs : List Char) : List Char := cs.dropWhile isBlank

def digitValue (c : Char) : Nat := c.toNat - '0'.toNat

def hexValue? (c : Char) : Option Nat :=
  if c.isDigit then some (digitValue c)
  else if 'a' ≤ c ∧ c ≤ 'f' then some (c.toNat - 'a'.toNat + 10)
  else if 'A' ≤ c ∧ c ≤ 'F' then some (c.toNat - 'A'.toNat + 10)
  else none

/-- Four hexadecimal digits. -/
def readHex? : List Char → Option (Nat × List Char)
  | a :: b :: c :: d :: rest => do
    let a ← hexValue? a
    let b ← hexValue? b
    let c ← hexValue? c
    let d ← hexValue? d
    some (((a * 16 + b) * 16 + c) * 16 + d, rest)
  | _ => none

/-- The character of a code unit, which may be the first of a surrogate pair. -/
def readUnit? (cs : List Char) : Option (Char × List Char) := do
  let (unit, rest) ← readHex? cs
  if 0xd800 ≤ unit ∧ unit < 0xdc00 then
    match rest with
    | '\\' :: 'u' :: rest =>
      let (low, rest) ← readHex? rest
      if 0xdc00 ≤ low ∧ low < 0xe000 then
        some (Char.ofNat (0x10000 + (unit - 0xd800) * 0x400 + (low - 0xdc00)), rest)
      else none
    | _ => none
  else if 0xdc00 ≤ unit ∧ unit < 0xe000 then none
  else some (Char.ofNat unit, rest)

/-- The characters of a string up to its closing quote; `read` holds those read
so far, the last one first. -/
def readString? : Nat → List Char → List Char → Option (String × List Char)
  | 0, _, _ => none
  | bound + 1, read, cs =>
    match cs with
    | '"' :: rest => some (String.ofList read.reverse, rest)
    | '\\' :: 'u' :: rest =>
      match readUnit? rest with
      | some (c, rest) => readString? bound (c :: read) rest
      | none => none
    | '\\' :: c :: rest =>
      match c with
      | '"' => readString? bound ('"' :: read) rest
      | '\\' => readString? bound ('\\' :: read) rest
      | '/' => readString? bound ('/' :: read) rest
      | 'b' => readString? bound (Char.ofNat 8 :: read) rest
      | 'f' => readString? bound (Char.ofNat 12 :: read) rest
      | 'n' => readString? bound ('\n' :: read) rest
      | 'r' => readString? bound ('\r' :: read) rest
      | 't' => readString? bound ('\t' :: read) rest
      | _ => none
    | c :: rest => if c.toNat < 32 then none else readString? bound (c :: read) rest
    | [] => none

/-- Appends digits to a significand for as long as it fits in 64 bits, and
answers the digits left over. -/
def absorb (significand : Nat) : List Char → Nat × List Char
  | [] => (significand, [])
  | c :: rest =>
    let next := significand * 10 + digitValue c
    if next < 0x10000000000000000 then absorb next rest else (significand, c :: rest)

def natToFloat (n : Nat) : Float := (UInt64.ofNat n).toFloat

/-- Brings a float from `10 ^ exponent` scale into range and applies the scale. A
value past the largest float has no reading. -/
def scale? : Nat → Float → Int → Option Float
  | 0, x, _ => some x
  | bound + 1, x, exponent =>
    if exponent.natAbs ≤ 308 then
      if 0 ≤ exponent then
        let scaled := x * Float.ofScientific 1 false exponent.natAbs
        if scaled.isInf then none else some scaled
      else some (x / Float.ofScientific 1 false exponent.natAbs)
    else if x == 0.0 then some x
    else if 0 ≤ exponent then none
    else scale? bound (x / 1e308) (exponent + 308)

def signed (negative : Bool) (x : Float) : Float := if negative then -x else x

/-- The exponent after its mark, with its sign. -/
def readExponent? (cs : List Char) : Option (Int × List Char) :=
  let (negative, cs) :=
    match cs with
    | '-' :: rest => (true, rest)
    | '+' :: rest => (false, rest)
    | cs => (false, cs)
  let digits := cs.takeWhile Char.isDigit
  if digits.isEmpty then none
  else
    let n : Int := digits.foldl (fun n c => n * 10 + digitValue c) 0
    some (if negative then -n else n, cs.drop digits.length)

/-- A number after its sign. -/
def readNumber? (negative : Bool) (cs : List Char) : Option (JsonTree × List Char) := do
  let whole := cs.takeWhile Char.isDigit
  let rest := cs.drop whole.length
  if whole.isEmpty || (whole.head? == some '0' && 1 < whole.length) then none
  let (significand, dropped) := absorb 0 whole
  let fraction? ← match rest with
    | '.' :: rest =>
      let digits := rest.takeWhile Char.isDigit
      if digits.isEmpty then none else some (some digits, rest.drop digits.length)
    | rest => some (none, rest)
  let (fraction, rest) := fraction?
  let mark? ← match rest with
    | 'e' :: rest | 'E' :: rest => (readExponent? rest).map fun (e, rest) => (some e, rest)
    | rest => some (none, rest)
  let (mark, rest) := mark?
  if fraction.isNone && mark.isNone && dropped.isEmpty then
    let tree :=
      if negative then
        if significand = 0 ∨ 0x8000000000000000 < significand then
          JsonTree.float (-(natToFloat significand))
        else JsonTree.integer (-significand)
      else JsonTree.integer significand
    some (tree, rest)
  else
    let (significand, left) := absorb significand (fraction.getD [])
    let places : Int := ((fraction.getD []).length : Int) - left.length
    let exponent := (dropped.length : Int) - places + mark.getD 0
    let x ← scale? 4 (natToFloat significand) (max (-1200) (min 1200 exponent))
    some (JsonTree.float (signed negative x), rest)

mutual

/-- Reads one value; every call uses up one unit of `bound`. -/
def readValue? : Nat → List Char → Option (JsonTree × List Char)
  | 0, _ => none
  | bound + 1, cs =>
    match skipBlanks cs with
    | 'n' :: 'u' :: 'l' :: 'l' :: rest => some (.null, rest)
    | 't' :: 'r' :: 'u' :: 'e' :: rest => some (.bool true, rest)
    | 'f' :: 'a' :: 'l' :: 's' :: 'e' :: rest => some (.bool false, rest)
    | '"' :: rest => (readString? (rest.length + 1) [] rest).map fun (s, rest) => (.string s, rest)
    | '[' :: rest =>
      match skipBlanks rest with
      | ']' :: rest => some (.array [], rest)
      | rest => (readItems? bound rest).map fun (items, rest) => (.array items, rest)
    | '\x7b' :: rest =>
      match skipBlanks rest with
      | '\x7d' :: rest => some (.object [], rest)
      | rest => (readFields? bound rest).map fun (fields, rest) => (.object fields, rest)
    | '-' :: rest => readNumber? true rest
    | rest => readNumber? false rest

def readItems? : Nat → List Char → Option (List JsonTree × List Char)
  | 0, _ => none
  | bound + 1, cs =>
    match readValue? bound cs with
    | none => none
    | some (item, rest) =>
      match skipBlanks rest with
      | ',' :: rest => (readItems? bound rest).map fun (items, rest) => (item :: items, rest)
      | ']' :: rest => some ([item], rest)
      | _ => none

def readFields? : Nat → List Char → Option (List (String × JsonTree) × List Char)
  | 0, _ => none
  | bound + 1, cs =>
    match skipBlanks cs with
    | '"' :: rest =>
      match readString? (rest.length + 1) [] rest with
      | none => none
      | some (name, rest) =>
        match skipBlanks rest with
        | ':' :: rest =>
          match readValue? bound rest with
          | none => none
          | some (value, rest) =>
            match skipBlanks rest with
            | ',' :: rest =>
              (readFields? bound rest).map fun (fields, rest) => ((name, value) :: fields, rest)
            | '\x7d' :: rest => some ([(name, value)], rest)
            | _ => none
        | _ => none
    | _ => none

end

end TemporalRewards.JsonReader

namespace TemporalRewards

/-- The tree of a document, if the text is one. -/
def JsonTree.ofText? (text : String) : Option JsonTree :=
  let cs := text.toList
  match JsonReader.readValue? (2 * cs.length + 2) cs with
  | some (tree, rest) => if (JsonReader.skipBlanks rest).isEmpty then some tree else none
  | none => none

end TemporalRewards
