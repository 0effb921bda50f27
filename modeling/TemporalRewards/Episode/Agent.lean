import TemporalRewards.Scope

/-! Agents of an episode: named objects with features, one of which may be driven
by the learner, in a world with inclusive bounds. -/
namespace TemporalRewards

structure Agent where
  name : String
  isEgo : Bool
  features : Features

structure Bounds where
  xMin : Float
  xMax : Float
  yMin : Float
  yMax : Float

def Bounds.contains (b : Bounds) (x y : Float) : Bool :=
  b.xMin ≤ x && x ≤ b.xMax && (b.yMin ≤ y && y ≤ b.yMax)

def Bounds.dump (b : Bounds) : String :=
  Text.record "WorldBounds"
    [("x_min", Decimal.dump.text b.xMin), ("x_max", Decimal.dump.text b.xMax),
      ("y_min", Decimal.dump.text b.yMin), ("y_max", Decimal.dump.text b.yMax)]

namespace Agent

/-- The features `x` and `y`, if the agent has both. -/
def position? (a : Agent) : Option (Float × Float) :=
  match a.features.get? "x", a.features.get? "y" with
  | some x, some y => some (x.toFloat, y.toFloat)
  | _, _ => none

/-- Whether the agent has a position and it lies in the bounds. -/
def isWithin (a : Agent) (b : Bounds) : Bool :=
  match a.position? with
  | some (x, y) => b.contains x y
  | none => false

def dump (a : Agent) : String :=
  Text.partialRecord "Agent" [("name", Text.quoted a.name), ("ego", Text.truth a.isEgo)]

end Agent

/-- A write to one feature of the object that has a name. -/
structure Assignment where
  object : String
  feature : String
  value : Value

namespace Agent

/-- The agents as objects; of two with one name the later is seen. -/
def objects (agents : List Agent) : Objects :=
  SortedMap.ofList (agents.map fun a => (a.name, a.features))

/-- Writes to the last agent that has the name of the object, the one that is
seen under that name. -/
def assign (w : Assignment) : List Agent → List Agent
  | [] => []
  | a :: rest =>
    if a.name = w.object ∧ rest.all (·.name ≠ w.object) then
      { a with features := a.features.set w.feature w.value } :: rest
    else a :: assign w rest

end Agent

end TemporalRewards
