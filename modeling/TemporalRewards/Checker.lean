import TemporalRewards.Labelling.Evaluator
import TemporalRewards.Property

/-! A checker evaluates a group of properties at every tick and folds the rewards
of those that fired into one signal. -/
namespace TemporalRewards

/-- One property that fired, with its reward. -/
structure Firing where
  formula : String
  mode : Mode
  reward : Float

/-- The formulas that fired in a mode, in order. -/
def Firing.formulas (mode : Mode) (firings : List Firing) : List String :=
  (firings.filter (·.mode = mode)).map (·.formula)

structure Checker where
  properties : List Property
  combine : Float → Float → Float

namespace Checker

/-- Reads the formulas in order. -/
def buildProperties (alphabet : Alphabet) : List PropertySpec → Except ConfigError (List Property)
  | [] => .ok []
  | spec :: rest =>
    match Property.build spec alphabet with
    | .error e => .error e
    | .ok p => (buildProperties alphabet rest).map (p :: ·)

/-- A checker that adds up the rewards. -/
def build (specs : List PropertySpec) (alphabet : Alphabet) : Except ConfigError Checker :=
  (buildProperties alphabet specs).map (⟨·, fun left right => left + right⟩)

def withCombine (c : Checker) (combine : Float → Float → Float) : Checker := { c with combine }

/-- Changes the first property with a formula text, if there is one. -/
def modifyFirst (formula : String) (f : Property → Property) :
    List Property → Option (List Property)
  | [] => none
  | p :: rest =>
    if p.formula = formula then some (f p :: rest) else (modifyFirst formula f rest).map (p :: ·)

def modify? (c : Checker) (formula : String) (f : Property → Property) : Option Checker :=
  (modifyFirst formula f c.properties).map fun properties => { c with properties }

/-- Resets every property and keeps which of them are active. -/
def rewind (c : Checker) : Checker := { c with properties := c.properties.map Property.reset }

/-- Evaluates properties in order. At the first error the rest stay as they are. -/
def evaluateAll (r : Reading) :
    List Property → Logged (Except RunError (List Firing) × List Property)
  | [] => pure (.ok [], [])
  | p :: rest => do
    match ← p.evaluate r.tick r.observation with
    | (.error e, p) => pure (.error (.stale e), p :: rest)
    | (.ok false, p) =>
      let (result, rest) ← evaluateAll r rest
      pure (result, p :: rest)
    | (.ok true, p) =>
      match p.reward.evaluate r.scope r.tick with
      | .error e => pure (.error (.evaluation e), p :: rest)
      | .ok reward =>
        let (result, rest) ← evaluateAll r rest
        pure (result.map (⟨p.formula, p.mode, reward⟩ :: ·), p :: rest)

/-- The rewards folded from the first one on; none gives zero. -/
def total (combine : Float → Float → Float) : List Float → Float
  | [] => 0.0
  | first :: rest => rest.foldl combine first

def infoOf (firings : List Firing) : Info :=
  ⟨Firing.formulas .violation firings, Firing.formulas .satisfaction firings, none⟩

def signalOf (c : Checker) (tick : Tick) (firings : List Firing) : Signal :=
  ⟨total c.combine (firings.map (·.reward)), infoOf firings, tick⟩

/-- Evaluates every property at a reading. -/
def check (c : Checker) (r : Reading) : Logged (Except RunError Signal × Checker) := do
  let (result, properties) ← evaluateAll r c.properties
  let c := { c with properties }
  match result with
  | .error e => pure (.error e, c)
  | .ok firings =>
    let signal := c.signalOf r.tick firings
    if signal.info.fired then Logged.note (.rewarded signal.tick signal.reward signal.info)
    pure (.ok signal, c)

variable {ε : Type} [Evaluator ε]

/-- Resets an evaluator and then every property, and checks at tick zero. -/
def reset (c : Checker) (world : World) (evaluator : ε) :
    Logged (Except RunError Signal × Checker × ε) := do
  match ← Evaluator.reset world evaluator with
  | (.error e, evaluator) => pure (.error (.evaluation e), c, evaluator)
  | (.ok (), evaluator) =>
    let (result, c) ← c.rewind.check (Evaluator.read world evaluator)
    pure (result, c, evaluator)

/-- Advances an evaluator by one tick and checks there. -/
def step (c : Checker) (world : World) (evaluator : ε) :
    Logged (Except RunError Signal × Checker × ε) := do
  match ← Evaluator.step world evaluator with
  | (.error e, evaluator) => pure (.error (.evaluation e), c, evaluator)
  | (.ok (), evaluator) =>
    let (result, c) ← c.check (Evaluator.read world evaluator)
    pure (result, c, evaluator)

def dump (c : Checker) : String :=
  Text.partialRecord "RewardChecker"
    [("properties", Text.bracketed (c.properties.map Property.dump))]

end Checker

end TemporalRewards
