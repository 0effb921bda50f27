import TemporalRewards.SortedMap

/-! Values by the tick at which they were observed. Ticks need not be contiguous. -/
namespace TemporalRewards

/-- Ticks are counted without a bound. Counters of 32 bits count the same in every run of fewer
than `2 ^ 32` ticks. -/
abbrev Tick := Nat

abbrev Trace (α : Type) := SortedMap Tick α

namespace Trace

/-- One end of a range of ticks. -/
inductive Bound
  | unbounded
  | included (tick : Tick)
  | excluded (tick : Tick)
deriving DecidableEq, Repr

def Bound.allowsAbove : Bound → Tick → Bool
  | unbounded, _ => true
  | included lower, tick => lower ≤ tick
  | excluded lower, tick => lower < tick

def Bound.allowsBelow : Bound → Tick → Bool
  | unbounded, _ => true
  | included upper, tick => tick ≤ upper
  | excluded upper, tick => tick < upper

/-- Whether a range starts after its end, or excludes the one tick it names. -/
def isReversed : Bound → Bound → Bool
  | .excluded lower, .excluded upper => upper ≤ lower
  | .included lower, .included upper | .included lower, .excluded upper
  | .excluded lower, .included upper => upper < lower
  | _, _ => false

/-- The part of a trace between two bounds. A reversed range is refused, except
on the empty trace. -/
def range? {α : Type} (trace : Trace α) (lower upper : Bound) : Option (Trace α) :=
  if trace.entries.isEmpty then some trace
  else if isReversed lower upper then none
  else some (trace.filter fun tick => lower.allowsAbove tick && upper.allowsBelow tick)

end Trace

end TemporalRewards
