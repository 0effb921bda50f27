import TemporalRewards.Observation

/-! Linear temporal formulas over numbered propositions. Conjunctions and
disjunctions take any number of operands. -/
namespace TemporalRewards

/-- Holds when all operands hold, or when any does. -/
inductive Junction
  | all
  | any
deriving DecidableEq, Repr

inductive Formula
  | bot
  | top
  | atom (index : Nat)
  | neg (body : Formula)
  | junction (kind : Junction) (operands : List Formula)
  | implies (antecedent consequent : Formula)
  | next (body : Formula)
  | eventually (body : Formula)
  | always (body : Formula)
  | strongUntil (left right : Formula)
deriving Inhabited, Repr

namespace Formula

def and (left right : Formula) : Formula := junction .all [left, right]

def or (left right : Formula) : Formula := junction .any [left, right]

mutual

/-- The number of nodes. -/
def size : Formula → Nat
  | bot | top | atom _ => 1
  | neg φ | next φ | eventually φ | always φ => φ.size + 1
  | junction _ operands => sizeAll operands + 1
  | implies φ ψ | strongUntil φ ψ => φ.size + ψ.size + 1

def sizeAll : List Formula → Nat
  | [] => 0
  | φ :: rest => φ.size + sizeAll rest

end

mutual

/-- Whether a temporal operator occurs anywhere. -/
def isTemporal : Formula → Bool
  | bot | top | atom _ => false
  | neg φ => φ.isTemporal
  | junction _ operands => anyTemporal operands
  | implies φ ψ => φ.isTemporal || ψ.isTemporal
  | next _ | eventually _ | always _ | strongUntil _ _ => true

def anyTemporal : List Formula → Bool
  | [] => false
  | φ :: rest => φ.isTemporal || anyTemporal rest

end

mutual

/-- The proposition indices that occur, from left to right. -/
def atoms : Formula → List Nat
  | bot | top => []
  | atom i => [i]
  | neg φ | next φ | eventually φ | always φ => φ.atoms
  | junction _ operands => atomsAll operands
  | implies φ ψ | strongUntil φ ψ => φ.atoms ++ ψ.atoms

def atomsAll : List Formula → List Nat
  | [] => []
  | φ :: rest => φ.atoms ++ atomsAll rest

end

/-- The largest proposition index that occurs. -/
def maxAtom? (φ : Formula) : Option Nat := φ.atoms.max?

end Formula

end TemporalRewards
