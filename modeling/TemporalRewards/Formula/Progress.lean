import TemporalRewards.Formula.Simplify

/-! Evaluation and progression. A formula without temporal operators has a truth
value at a single observation. Any formula can be progressed through an
observation: what is left is the obligation on the rest of the trace, and a
constant once the obligation is discharged or violated. -/
namespace TemporalRewards.Formula

mutual

/-- The truth value at one observation; a formula with a temporal operator has none. -/
def evaluate? (o : Observation) : Formula → Option Bool
  | bot => some false
  | top => some true
  | atom i => some (o.get i)
  | neg φ => (φ.evaluate? o).map (!·)
  | junction .all operands => (evaluateAll? o operands).map (·.all id)
  | junction .any operands => (evaluateAll? o operands).map (·.any id)
  | implies φ ψ => (φ.evaluate? o).bind fun left => (ψ.evaluate? o).map fun right => !left || right
  | next _ | eventually _ | always _ | strongUntil _ _ => none

def evaluateAll? (o : Observation) : List Formula → Option (List Bool)
  | [] => some []
  | φ :: rest => (φ.evaluate? o).bind fun value => (evaluateAll? o rest).map (value :: ·)

end

def ofBool : Bool → Formula
  | false => bot
  | true => top

mutual

/-- The obligation left after one observation, simplified. -/
def progress (o : Observation) : Formula → Formula
  | bot => bot
  | top => top
  | atom i => ofBool (o.get i)
  | neg φ => (neg (φ.progress o)).simplify
  | junction kind operands => (junction kind (progressAll o operands)).simplify
  | implies φ ψ => (implies (φ.progress o) (ψ.progress o)).simplify
  | next φ => φ.simplify
  | eventually φ => (or (φ.progress o) (eventually φ)).simplify
  | always φ => (and (φ.progress o) (always φ)).simplify
  | strongUntil φ ψ => (or (ψ.progress o) (and (φ.progress o) (strongUntil φ ψ))).simplify

def progressAll (o : Observation) : List Formula → List Formula
  | [] => []
  | φ :: rest => φ.progress o :: progressAll o rest

end

end TemporalRewards.Formula
