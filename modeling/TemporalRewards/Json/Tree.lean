import TemporalRewards.Decimal.Layout
import TemporalRewards.Text.Quoted

/-! Data documents as trees, and their compact text. A number is an integer or a
float, and the two are kept apart. -/
namespace TemporalRewards

inductive JsonTree
  | null
  | bool (b : Bool)
  | integer (n : Int)
  | float (x : Float)
  | string (text : String)
  | array (items : List JsonTree)
  | object (fields : List (String × JsonTree))

namespace JsonTree

/-- A number that is no integer. One that is not finite has no form in a document
and stands as null. -/
def number (x : Float) : JsonTree := if x.isFinite then float x else null

def escapeChar (c : Char) : List Char :=
  if c = '"' then ['\\', '"']
  else if c = '\\' then ['\\', '\\']
  else if c = '\n' then ['\\', 'n']
  else if c = '\r' then ['\\', 'r']
  else if c = '\t' then ['\\', 't']
  else if c.toNat = 8 then ['\\', 'b']
  else if c.toNat = 12 then ['\\', 'f']
  else if c.toNat < 16 then "\\u000".toList ++ Nat.toDigits 16 c.toNat
  else if c.toNat < 32 then "\\u00".toList ++ Nat.toDigits 16 c.toNat
  else [c]

def writeString (text : String) (rest : List Char) : List Char :=
  '"' :: (text.toList.flatMap escapeChar ++ '"' :: rest)

mutual

/-- Writes a tree in front of `rest`, without blanks. -/
def write (tree : JsonTree) (rest : List Char) : List Char :=
  match tree with
  | null => "null".toList ++ rest
  | bool b => (Text.truth b).toList ++ rest
  | integer n => (toString n).toList ++ rest
  | float x => (Decimal.document.text x).toList ++ rest
  | string text => writeString text rest
  | array items => '[' :: writeItems items (']' :: rest)
  | object fields => '\x7b' :: writeFields fields ('\x7d' :: rest)

def writeItems (items : List JsonTree) (rest : List Char) : List Char :=
  match items with
  | [] => rest
  | [item] => item.write rest
  | item :: others => item.write (',' :: writeItems others rest)

def writeFields (fields : List (String × JsonTree)) (rest : List Char) : List Char :=
  match fields with
  | [] => rest
  | [(name, value)] => writeString name (':' :: value.write rest)
  | (name, value) :: others =>
    writeString name (':' :: value.write (',' :: writeFields others rest))

end

def text (tree : JsonTree) : String := String.ofList (tree.write [])

/-- The value of a field; of two with one name the later counts. -/
def lookupLast (name : String) (fields : List (String × JsonTree)) : Option JsonTree :=
  fields.reverse.lookup name

end JsonTree

end TemporalRewards
