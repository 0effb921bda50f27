import TemporalRewards.Event
import TemporalRewards.Formula.Progress
import TemporalRewards.Syntax.TextGrammar

/-! The monitor of one formula. A formula without temporal operators is judged at
each observation on its own. A temporal formula is progressed through every
observation since the last reset; what is left is its residual, and the verdict
reads the residual, presuming that open always and until obligations will hold. -/
namespace TemporalRewards

/-- The verdict on an obligation that may still be open. Below an odd number of
negations nothing is presumed, so that no presumption is negated into a proof. -/
def presume (positive : Bool) : Formula → Verdict
  | .bot => .violated
  | .top => .satisfied
  | .atom _ | .next _ | .eventually _ => .inconclusive
  | .always _ | .strongUntil _ _ => if positive then .satisfied else .inconclusive
  | .neg φ => (presume (!positive) φ).not
  | .junction .all operands => presumeAll positive operands
  | .junction .any operands => presumeAny positive operands
  | .implies φ ψ => Truth.join (presume (!positive) φ).not (presume positive ψ)
where
  /-- The least verdict of the operands. -/
  presumeAll (positive : Bool) : List Formula → Verdict
    | [] => Truth.top
    | φ :: rest => Truth.meet (presume positive φ) (presumeAll positive rest)
  /-- The greatest verdict of the operands. -/
  presumeAny (positive : Bool) : List Formula → Verdict
    | [] => Truth.bottom
    | φ :: rest => Truth.join (presume positive φ) (presumeAny positive rest)

/-- `base` is the obligation before the last tick, so that the tick can be
observed again; `residual` is the obligation after it. `Monitor.isTemporal` and
`Monitor.verdict` are not fields: the formula never changes, and the verdict is always that of
the residual, also behind a refused observation, so that stored copies would equal them. -/
structure Monitor where
  formula : Formula
  base : Formula
  residual : Formula
  lastTick : Option Tick
deriving DecidableEq

namespace Monitor

/-- A monitor that has seen nothing, for a formula in simplified form. -/
def start (formula : Formula) : Monitor := ⟨formula, formula, formula, none⟩

def ofFormula (φ : Formula) : Monitor := start φ.simplify

def compile (text : String) (alphabet : Alphabet) : Except ParseError Monitor :=
  (parseFormula text alphabet).map ofFormula

def isTemporal (m : Monitor) : Bool := m.formula.isTemporal

def verdict (m : Monitor) : Verdict := presume true m.residual

/-- The truth value of a temporal formula that no later observation can change. -/
def settled? (m : Monitor) : Option Bool :=
  if m.isTemporal then
    match m.residual with
    | .top => some true
    | .bot => some false
    | _ => none
  else none

def isSettled (m : Monitor) : Bool := m.settled?.isSome

def reset (m : Monitor) : Monitor := start m.formula

/-- The obligation that an observation for `tick` is read against. A later tick
goes on from the residual; the last tick again starts over from its base. -/
def baseAt (m : Monitor) (tick : Tick) : Formula :=
  match m.lastTick with
  | some last => if last < tick ∧ m.isTemporal then m.residual else m.base
  | none => m.base

/-- The monitor after an observation for a tick that is not before the last one. -/
def advance (m : Monitor) (tick : Tick) (o : Observation) : Monitor :=
  { m with
    base := m.baseAt tick
    residual := (m.baseAt tick).progress o
    lastTick := some tick }

/-- Whether a tick lies before the last one. -/
def stale? (m : Monitor) (tick : Tick) : Option StaleTick :=
  match m.lastTick with
  | some last => if tick < last then some ⟨tick, last⟩ else none
  | none => none

/-- What is recorded of an observation for `tick` that led to `after`. -/
def event (m after : Monitor) (tick : Tick) : Event :=
  if !m.isSettled && after.isSettled then .settled after.formula after.verdict tick
  else .observed after.formula after.verdict tick

/-- Takes in the observation for a tick. The last tick again replaces what was
observed for it, and an earlier tick is refused. -/
def observe (m : Monitor) (tick : Tick) (o : Observation) :
    Logged (Except StaleTick Verdict × Monitor) :=
  match m.stale? tick with
  | some e => ⟨(.error e, m), []⟩
  | none =>
    let after := m.advance tick o
    ⟨(.ok after.verdict, after), [m.event after tick]⟩

/-- Observes entries from left to right, as long as none is refused. -/
def observeAll (m : Monitor) : List (Tick × Observation) →
    Logged (Except StaleTick (List (Tick × Verdict)) × Monitor)
  | [] => pure (.ok [], m)
  | (tick, o) :: rest => do
    let (result, m) ← m.observe tick o
    match result with
    | .error e => pure (.error e, m)
    | .ok verdict =>
      let (later, m) ← m.observeAll rest
      pure (later.map ((tick, verdict) :: ·), m)

/-- Resets the monitor and answers the verdict after each tick of a trace. -/
def checkTrace (m : Monitor) (trace : Trace Observation) :
    Logged (Except StaleTick (List (Tick × Verdict)) × Monitor) :=
  m.reset.observeAll trace.entries

def dump (m : Monitor) : String :=
  Text.record "Monitor"
    [("formula", m.formula.dumpText), ("temporal", Text.truth m.isTemporal),
      ("base", m.base.dumpText), ("residual", m.residual.dumpText),
      ("last_tick", Text.optional (m.lastTick.map toString)), ("verdict", m.verdict.label)]

end Monitor

end TemporalRewards
