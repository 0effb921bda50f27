import TemporalRewards.Event

/-! A priority that at most one claimant holds at a time, such as the right of
way at an intersection. -/
namespace TemporalRewards

structure Priority where
  owner : Option String
deriving DecidableEq, Repr

namespace Priority

def free : Priority := ⟨none⟩

def isClaimed (p : Priority) : Bool := p.owner.isSome

/-- Whether `claimant` holds the priority. -/
def has (p : Priority) (claimant : String) : Bool := p.owner == some claimant

/-- Grants the priority if it is free; its holder may ask again. -/
def request (p : Priority) (claimant : String) : Logged (Bool × Priority) :=
  match p.owner with
  | some owner => .quiet (owner == claimant, p)
  | none => ⟨(true, ⟨some claimant⟩), [.granted claimant]⟩

/-- Gives the priority up; only its holder can. -/
def release (p : Priority) (claimant : String) : Logged (Bool × Priority) :=
  if p.has claimant then ⟨(true, free), [.released claimant]⟩ else .quiet (false, p)

end Priority

end TemporalRewards
