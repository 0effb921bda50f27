/-! The proposition names of a labelling, in order: a name's place is the bit it
occupies in an observation. -/
namespace TemporalRewards

structure Alphabet where
  names : List String
deriving DecidableEq, Repr

namespace Alphabet

def empty : Alphabet := ⟨[]⟩

/-- Adds a name at the end; its index is the size before. -/
def push (a : Alphabet) (name : String) : Alphabet := ⟨a.names ++ [name]⟩

def size (a : Alphabet) : Nat := a.names.length

/-- The first place of a name. -/
def index? (a : Alphabet) (name : String) : Option Nat := a.names.findIdx? (· == name)

def name? (a : Alphabet) (index : Nat) : Option String := a.names[index]?

end Alphabet

end TemporalRewards
