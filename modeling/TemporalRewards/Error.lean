import TemporalRewards.Observation
import TemporalRewards.Syntax.Error
import TemporalRewards.Trace
import TemporalRewards.Verdict

/-! What can go wrong past the reading of a formula: while rules are evaluated,
while a configuration is put together, and while observations are monitored. -/
namespace TemporalRewards

/-- The two kinds of rule table. -/
inductive TableKind
  | definitions
  | propositions
deriving DecidableEq, Repr

def TableKind.text : TableKind → String
  | definitions => "definitions"
  | propositions => "propositions"

/-- Errors of definition rules, proposition rules and rewards. -/
inductive EvalError
  | unknownName (name : String)
  | unknownObject (name : String)
  | unknownFeature (object feature : String)
  | typeMismatch (name expected found : String)
  | outOfSync (definitions propositions : Tick)
  | rule (name : String) (tick : Tick) (cause : EvalError)
  | custom (message : String)
deriving DecidableEq, Repr

def EvalError.message : EvalError → String
  | unknownName name => s!"Unknown name \"{name}\""
  | unknownObject name => s!"Unknown object \"{name}\""
  | unknownFeature object feature => s!"Object \"{object}\" has no attribute \"{feature}\""
  | typeMismatch name expected found => s!"Expected \"{name}\" to be {expected}, found {found}"
  | outOfSync definitions propositions =>
    s!"Definitions are at tick {definitions} but propositions expected tick {propositions}"
  | rule name tick cause => s!"Rule \"{name}\" failed at tick {tick}: {cause.message}"
  | custom message => message

/-- Errors of tables, properties and episodes that cannot be set up. -/
inductive ConfigError
  | duplicateName (table : TableKind) (name : String)
  | tooManyPropositions (count : Nat)
  | formula (text : String) (cause : ParseError)
  | unknownMode (text : String)
  | initial (cause : EvalError)
  | multipleEgos (count : Nat)
  | tooManyAgents (count : Nat)
deriving DecidableEq, Repr

/-- The largest number of agents in an episode. -/
def maxAgents : Nat := 32

def ConfigError.message : ConfigError → String
  | duplicateName table name => s!"Duplicate name \"{name}\" in {table.text}"
  | tooManyPropositions count =>
    s!"{count} propositions declared, but at most {Observation.capacity} are supported"
  | formula text cause => s!"Could not compile formula \"{text}\": {cause.message}"
  | unknownMode text => s!"Unknown property mode \"{text}\""
  | initial cause => s!"Initial evaluation failed: {cause.message}"
  | multipleEgos count => s!"At most one ego agent is supported, found {count}"
  | tooManyAgents count => s!"{count} agents declared, but at most {maxAgents} are supported"

/-- The mode that a text names. -/
def Mode.ofText (text : String) : Except ConfigError Mode :=
  match Mode.ofText? text with
  | some mode => .ok mode
  | none => .error (.unknownMode text)

/-- An observation for a tick before the last one. -/
structure StaleTick where
  tick : Tick
  last : Tick
deriving DecidableEq, Repr

def StaleTick.message (e : StaleTick) : String := s!"Tick {e.tick} observed after tick {e.last}"

/-- Errors while properties are checked. -/
inductive RunError
  | evaluation (cause : EvalError)
  | stale (cause : StaleTick)
deriving DecidableEq, Repr

def RunError.message : RunError → String
  | evaluation cause => cause.message
  | stale cause => cause.message

end TemporalRewards
