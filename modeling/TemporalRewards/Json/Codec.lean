import TemporalRewards.Json.Tree
import TemporalRewards.Objects
import TemporalRewards.Property
import TemporalRewards.Signal

/-! How the data of signals, features and properties stand in documents. Values
stand for themselves. Words of a fixed choice are strings. Records are objects
with their fields in a fixed order, and may be read from an array as well. -/
namespace TemporalRewards

namespace JsonTree

def asBool? : JsonTree → Option Bool
  | bool b => some b
  | _ => none

/-- An integer of 64 bits. -/
def asInt? : JsonTree → Option Int64
  | integer n =>
    if -0x8000000000000000 ≤ n ∧ n < 0x8000000000000000 then some (Int64.ofInt n) else none
  | _ => none

/-- A number of either kind. -/
def asFloat? : JsonTree → Option Float
  | integer n =>
    let size := (UInt64.ofNat n.natAbs).toFloat
    some (if n < 0 then -size else size)
  | float x => some x
  | _ => none

def asString? : JsonTree → Option String
  | string s => some s
  | _ => none

/-- A tick takes 32 bits. -/
def asTick? : JsonTree → Option Tick
  | integer n => if 0 ≤ n ∧ n < 0x100000000 then some n.toNat else none
  | _ => none

/-- Reads every item of an array. -/
def asList? {α : Type} (item : JsonTree → Option α) : JsonTree → Option (List α)
  | array items => items.mapM item
  | _ => none

/-- A word: a string, or an object with the word as its only field and null there. -/
def asWord? : JsonTree → Option String
  | string s => some s
  | object [(word, null)] => some word
  | _ => none

/-- The fields of a record, from an object by name or from an array by place.
Fields of other names are passed over, and surplus items are refused. -/
def asRecord? (names : List String) : JsonTree → Option (List (Option JsonTree))
  | object fields => some (names.map fun name => lookupLast name fields)
  | array items =>
    if items.length ≤ names.length then
      some ((List.range names.length).map fun i => items[i]?)
    else none
  | _ => none

end JsonTree

namespace Value

def toJson : Value → JsonTree
  | bool b => .bool b
  | int n => .integer n.toInt
  | float x => .number x

/-- The kinds are tried in order, so that a number that is no integer of 64 bits is a float. -/
def ofJson? (tree : JsonTree) : Option Value :=
  tree.asBool?.map bool <|> tree.asInt?.map int <|> tree.asFloat?.map float

def listToJson (values : List Value) : JsonTree := .array (values.map toJson)

def listOfJson? (tree : JsonTree) : Option (List Value) := tree.asList? ofJson?

end Value

namespace Verdict

def toJson (v : Verdict) : JsonTree := .string v.text

def ofText? : String → Option Verdict
  | "false" => some violated
  | "inconclusive" => some inconclusive
  | "true" => some satisfied
  | _ => none

def ofJson? (tree : JsonTree) : Option Verdict := tree.asWord?.bind ofText?

end Verdict

namespace Mode

def toJson (m : Mode) : JsonTree := .string m.text

def ofJson? (tree : JsonTree) : Option Mode := tree.asWord?.bind ofText?

end Mode

namespace Channel

def toJson (c : Channel) : JsonTree := .string c.text

def ofJson? (tree : JsonTree) : Option Channel := tree.asWord?.bind ofText?

end Channel

namespace Info

def strings (items : List String) : JsonTree := .array (items.map .string)

/-- A list of formulas is left out when it is empty, and the channel when there is none. -/
def toJson (i : Info) : JsonTree :=
  .object
    ((if i.violations.isEmpty then [] else [("violations", strings i.violations)]) ++
      (if i.satisfactions.isEmpty then [] else [("satisfactions", strings i.satisfactions)]) ++
      (match i.channel with
        | some channel => [("mode", channel.toJson)]
        | none => []))

/-- A list of formulas that may be left out. -/
def formulas? : Option JsonTree → Option (List String)
  | none => some []
  | some tree => tree.asList? JsonTree.asString?

/-- A channel that may be left out or null. -/
def channel? : Option JsonTree → Option (Option Channel)
  | none | some .null => some none
  | some tree => (Channel.ofJson? tree).map some

def ofJson? (tree : JsonTree) : Option Info :=
  match tree.asRecord? ["violations", "satisfactions", "mode"] with
  | some [violations, satisfactions, channel] => do
    let violations ← formulas? violations
    let satisfactions ← formulas? satisfactions
    let channel ← channel? channel
    some ⟨violations, satisfactions, channel⟩
  | _ => none

end Info

namespace Signal

def toJson (s : Signal) : JsonTree :=
  .object [("reward", .number s.reward), ("info", s.info.toJson), ("tick", .integer s.tick)]

def ofJson? (tree : JsonTree) : Option Signal :=
  match tree.asRecord? ["reward", "info", "tick"] with
  | some [some reward, some info, some tick] => do
    let reward ← reward.asFloat?
    let info ← Info.ofJson? info
    let tick ← tick.asTick?
    some ⟨reward, info, tick⟩
  | _ => none

end Signal

namespace Feature

def toJson (f : Feature) : JsonTree := .object [("name", .string f.name), ("value", f.value.toJson)]

def ofJson? (tree : JsonTree) : Option Feature :=
  match tree.asRecord? ["name", "value"] with
  | some [some name, some value] => do
    let name ← name.asString?
    let value ← Value.ofJson? value
    some ⟨name, value⟩
  | _ => none

end Feature

namespace PropertySpec

/-- In a document every reward is a constant. -/
def ofJson? (tree : JsonTree) : Option PropertySpec :=
  match tree.asRecord? ["formula", "reward", "mode"] with
  | some [some formula, some reward, some mode] => do
    let formula ← formula.asString?
    let reward ← reward.asFloat?
    let mode ← Mode.ofJson? mode
    some ⟨formula, .constant reward, mode⟩
  | _ => none

end PropertySpec

end TemporalRewards
