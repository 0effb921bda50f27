/-! Truth values of two kinds: booleans, and the three-valued verdicts of a
monitor, ordered violated < inconclusive < satisfied. On both, conjunction is
the lesser and disjunction the greater of two values. -/
namespace TemporalRewards

/-- A bounded order of truth values with the connectives read off it. -/
class Truth (α : Type) where
  bottom : α
  top : α
  meet : α → α → α
  join : α → α → α

instance : Truth Bool where
  bottom := false
  top := true
  meet left right := left && right
  join left right := left || right

/-- What is known of a requirement after the observations so far. -/
inductive Verdict
  | violated
  | inconclusive
  | satisfied
deriving DecidableEq, Repr

namespace Verdict

def rank : Verdict → Nat
  | violated => 0
  | inconclusive => 1
  | satisfied => 2

instance : Ord Verdict := ⟨fun left right => compare left.rank right.rank⟩

instance : Truth Verdict where
  bottom := violated
  top := satisfied
  meet left right := if left.rank ≤ right.rank then left else right
  join left right := if left.rank ≤ right.rank then right else left

/-- Negation swaps the settled verdicts and keeps the open one. -/
def not : Verdict → Verdict
  | violated => satisfied
  | inconclusive => inconclusive
  | satisfied => violated

def ofBool : Bool → Verdict
  | false => violated
  | true => satisfied

def text : Verdict → String
  | violated => "false"
  | inconclusive => "inconclusive"
  | satisfied => "true"

/-- The name of the verdict in a structural dump. -/
def label : Verdict → String
  | violated => "False"
  | inconclusive => "Inconclusive"
  | satisfied => "True"

end Verdict

/-- Which verdict of a property fires its reward. -/
inductive Mode
  | violation
  | satisfaction
deriving DecidableEq, Repr

namespace Mode

/-- An inconclusive verdict fires in neither mode. -/
def triggers : Mode → Verdict → Bool
  | violation, .violated => true
  | satisfaction, .satisfied => true
  | _, _ => false

def text : Mode → String
  | violation => "violation"
  | satisfaction => "satisfaction"

/-- The name of the mode in a structural dump. -/
def label : Mode → String
  | violation => "Violation"
  | satisfaction => "Satisfaction"

def ofText? : String → Option Mode
  | "violation" => some violation
  | "satisfaction" => some satisfaction
  | _ => none

end Mode

end TemporalRewards
