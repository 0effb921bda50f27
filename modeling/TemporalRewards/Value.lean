import TemporalRewards.Decimal.Layout

/-! Scalars: the values of definitions, propositions and attributes. Values are
ordered by kind first, booleans before integers before floats. -/
namespace TemporalRewards

inductive Value
  | bool (b : Bool)
  | int (n : Int64)
  | float (x : Float)
deriving Inhabited

/-- A total order on floats: a value that is not a number equals itself and is
above every other. -/
def compareFloat (x y : Float) : Ordering :=
  match x.isNaN, y.isNaN with
  | true, true => .eq
  | true, false => .gt
  | false, true => .lt
  | false, false => if x < y then .lt else if x == y then .eq else .gt

/-- The lesser of two floats; one that is not a number gives way to the other. -/
def lesser (x y : Float) : Float := if x.isNaN then y else if y < x then y else x

/-- The greater of two floats; one that is not a number gives way to the other. -/
def greater (x y : Float) : Float := if x.isNaN then y else if x < y then y else x

namespace Value

def kindName : Value → String
  | bool _ => "a boolean"
  | int _ => "an integer"
  | float _ => "a float"

def asBool? : Value → Option Bool
  | bool b => some b
  | _ => none

def asInt? : Value → Option Int64
  | int n => some n
  | _ => none

/-- The value as a number; booleans count as zero and one. -/
def toFloat : Value → Float
  | bool b => if b then 1.0 else 0.0
  | int n => n.toFloat
  | float x => x

def order : Value → Value → Ordering
  | bool a, bool b => compare a.toNat b.toNat
  | bool _, _ => .lt
  | _, bool _ => .gt
  | int a, int b => compare a.toInt b.toInt
  | int _, float _ => .lt
  | float _, int _ => .gt
  | float x, float y => compareFloat x y

instance : Ord Value := ⟨order⟩

def text : Value → String
  | bool b => if b then "true" else "false"
  | int n => toString n.toInt
  | float x => Decimal.plain.text x

/-- The structural dump of a value. -/
def dump : Value → String
  | bool b => "Bool(" ++ (if b then "true" else "false") ++ ")"
  | int n => "Int(" ++ toString n.toInt ++ ")"
  | float x => "Float(OrderedFloat(" ++ Decimal.dump.text x ++ "))"

end Value

end TemporalRewards
