import TemporalRewards.Objects
import TemporalRewards.Priority

/-! What a rule may read: the entries of the table under evaluation that come
before it, the entries of the table below, and the world outside the tables. -/
namespace TemporalRewards

/-- The world that rules look at, as it is when they are evaluated. -/
structure World where
  objects : Objects
  priority : Priority

def World.empty : World := ⟨SortedMap.empty, .free⟩

/-- A named value of a table. -/
abbrev Entry := String × Value

/-- Inner entries belong to the table under evaluation and outer ones to the
table that it builds on. -/
structure Scope where
  world : World
  outer : List Entry
  inner : List Entry

namespace Scope

/-- A scope without table entries. -/
def ofWorld (world : World) : Scope := ⟨world, [], []⟩

/-- The value of a name, where an inner entry hides an outer one. -/
def get? (s : Scope) (name : String) : Option Value :=
  (s.inner.lookup name).or (s.outer.lookup name)

def value (s : Scope) (name : String) : Except EvalError Value :=
  match s.get? name with
  | some v => .ok v
  | none => .error (.unknownName name)

/-- The value of a name that has to be a boolean. -/
def flag (s : Scope) (name : String) : Except EvalError Bool :=
  match s.value name with
  | .error e => .error e
  | .ok v =>
    match v.asBool? with
    | some b => .ok b
    | none => .error (.typeMismatch name (Value.bool false).kindName v.kindName)

/-- The value of a name that has to be an integer. -/
def integer (s : Scope) (name : String) : Except EvalError Int64 :=
  match s.value name with
  | .error e => .error e
  | .ok v =>
    match v.asInt? with
    | some n => .ok n
    | none => .error (.typeMismatch name (Value.int 0).kindName v.kindName)

/-- The value of a name as a number. -/
def number (s : Scope) (name : String) : Except EvalError Float := (s.value name).map Value.toFloat

def object (s : Scope) (name : String) : Except EvalError Features :=
  match s.world.objects.get? name with
  | some features => .ok features
  | none => .error (.unknownObject name)

/-- A feature of an object. -/
def feature (s : Scope) (object feature : String) : Except EvalError Value :=
  match s.object object with
  | .error e => .error e
  | .ok features =>
    match features.get? feature with
    | some v => .ok v
    | none => .error (.unknownFeature object feature)

/-- All entries by name, an inner one over an outer one. -/
def entries (s : Scope) : SortedMap String Value := SortedMap.ofList (s.outer ++ s.inner)

end Scope

end TemporalRewards
