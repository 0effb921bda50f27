import TemporalRewards.SortedMap
import TemporalRewards.Text.Quoted
import TemporalRewards.Value

/-! Named features, and the objects that carry them. Features keep the order in
which they were first set; objects are sorted by name. -/
namespace TemporalRewards

structure Feature where
  name : String
  value : Value

def Feature.text (f : Feature) : String := f.name ++ ":" ++ f.value.text

/-- The features of one object, in the order in which they were first set. -/
structure Features where
  list : List Feature

namespace Features

def empty : Features := ⟨[]⟩

def size (fs : Features) : Nat := fs.list.length

def find? (fs : Features) (name : String) : Option Feature := fs.list.find? (·.name == name)

def get? (fs : Features) (name : String) : Option Value := (fs.find? name).map (·.value)

/-- Changes the first feature of that name, or adds one at the end. -/
def setIn (name : String) (value : Value) : List Feature → List Feature
  | [] => [⟨name, value⟩]
  | f :: rest => if f.name == name then ⟨name, value⟩ :: rest else f :: setIn name value rest

def set (fs : Features) (name : String) (value : Value) : Features := ⟨setIn name value fs.list⟩

/-- Sets features from left to right. -/
def ofList (entries : List (String × Value)) : Features :=
  entries.foldl (fun fs e => fs.set e.1 e.2) empty

def text (fs : Features) : String := ", ".intercalate (fs.list.map Feature.text)

end Features

/-- The objects of a scene by name. -/
abbrev Objects := SortedMap String Features

namespace Objects

def contains (objects : Objects) (name : String) : Bool := (objects.get? name).isSome

/-- Sets a feature of an object that exists. -/
def setAttribute (objects : Objects) (name feature : String) (value : Value) : Objects :=
  objects.modify name (·.set feature value)

def dump (objects : Objects) : String := Text.braced (objects.keys.map Text.quoted)

end Objects

end TemporalRewards
