import TemporalRewards.Labelling.Evaluator
import TemporalRewards.Labelling.Rule

/-! Labelling by rules: definitions compute values from the world, propositions
compute truth values on top of them, and a pipeline advances both. A table that
fails keeps its tick and its values. -/
namespace TemporalRewards

/-- Rules for named values, with the values at the current tick. -/
structure Definitions where
  table : Table Value
  tick : Tick
  entries : List Entry

namespace Definitions

/-- Evaluates the table at a tick. -/
def evaluateAt (d : Definitions) (world : World) (tick : Tick) :
    Logged (Except EvalError Unit × Definitions) := do
  match ← d.table.evaluate id world [] tick with
  | .error e => pure (.error e, d)
  | .ok entries => pure (.ok (), { d with tick, entries })

def reset (d : Definitions) (world : World) : Logged (Except EvalError Unit × Definitions) :=
  d.evaluateAt world 0

def step (d : Definitions) (world : World) : Logged (Except EvalError Unit × Definitions) :=
  d.evaluateAt world (d.tick + 1)

/-- A table before its first evaluation. The objects of the world have names of their own. -/
def prepare (rules : List (String × Rule Value)) (world : World) : Except ConfigError Definitions :=
  match Table.build .definitions rules with
  | .error e => .error e
  | .ok table => (table.rejectNames world.objects.keys).map fun _ => ⟨table, 0, []⟩

/-- Definitions at tick zero. -/
def build (rules : List (String × Rule Value)) (world : World) :
    Logged (Except ConfigError Definitions) :=
  match prepare rules world with
  | .error e => pure (.error e)
  | .ok d => do
    match ← d.reset world with
    | (.error e, _) => pure (.error (.initial e))
    | (.ok (), d) => pure (.ok d)

def names (d : Definitions) : List String := d.table.names

def size (d : Definitions) : Nat := d.table.size

def scope (d : Definitions) (world : World) : Scope := ⟨world, [], d.entries⟩

def get? (d : Definitions) (name : String) : Option Value := d.entries.lookup name

/-- The current values by name. -/
def byName (d : Definitions) : SortedMap String Value := SortedMap.ofList d.entries

def dump (d : Definitions) : String :=
  Text.record "Definitions"
    [("tick", toString d.tick),
      ("entries", Text.bracketed (d.entries.map fun (name, value) =>
        "(" ++ Text.quoted name ++ ", " ++ value.dump ++ ")"))]

end Definitions

/-- Rules for named truth values, with the values at the current tick. The alphabet, the entries
and the observation are not fields: the rules never change, and the other two are told by the
values, which a failed evaluation leaves alone, so that stored copies would equal them. -/
structure Propositions where
  table : Table Bool
  tick : Tick
  values : List (String × Bool)

namespace Propositions

/-- Evaluates the table at a tick, over definitions at the same tick. -/
def evaluateAt (p : Propositions) (definitions : Definitions) (world : World) (tick : Tick) :
    Logged (Except EvalError Unit × Propositions) :=
  if definitions.tick = tick then do
    match ← p.table.evaluate Value.bool world definitions.entries tick with
    | .error e => pure (.error e, p)
    | .ok values => pure (.ok (), { p with tick, values })
  else pure (.error (.outOfSync definitions.tick tick), p)

/-- Back to tick zero; the definitions are there already. -/
def reset (p : Propositions) (definitions : Definitions) (world : World) :
    Logged (Except EvalError Unit × Propositions) :=
  p.evaluateAt definitions world 0

/-- On to the next tick; the definitions are there already. -/
def step (p : Propositions) (definitions : Definitions) (world : World) :
    Logged (Except EvalError Unit × Propositions) :=
  p.evaluateAt definitions world (p.tick + 1)

/-- A table before its first evaluation. An observation has room for it, and
objects and definitions have names of their own. -/
def prepare (rules : List (String × Rule Bool)) (definitions : Definitions) (world : World) :
    Except ConfigError Propositions :=
  match Table.build .propositions rules with
  | .error e => .error e
  | .ok table =>
    if table.size ≤ Observation.capacity then
      match table.rejectNames world.objects.keys with
      | .error e => .error e
      | .ok () => (table.rejectNames definitions.names).map fun _ => ⟨table, 0, []⟩
    else .error (.tooManyPropositions table.size)

/-- Propositions at tick zero. -/
def build (rules : List (String × Rule Bool)) (definitions : Definitions) (world : World) :
    Logged (Except ConfigError Propositions) :=
  match prepare rules definitions world with
  | .error e => pure (.error e)
  | .ok p => do
    match ← p.reset definitions world with
    | (.error e, _) => pure (.error (.initial e))
    | (.ok (), p) => pure (.ok p)

def alphabet (p : Propositions) : Alphabet := ⟨p.table.names⟩

def size (p : Propositions) : Nat := p.table.size

/-- The current truth values, the first proposition at bit zero. -/
def observation (p : Propositions) : Observation := Observation.ofList (p.values.map (·.2))

/-- The current truth values as table entries. -/
def entries (p : Propositions) : List Entry := p.values.map fun (name, value) => (name, .bool value)

def get? (p : Propositions) (name : String) : Option Bool :=
  (p.alphabet.index? name).map p.observation.get

/-- The current truth values by name. -/
def byName (p : Propositions) : SortedMap String Bool :=
  SortedMap.ofList (p.alphabet.names.zip (p.observation.toList p.alphabet.size))

def dump (p : Propositions) : String :=
  Text.record "Propositions"
    [("tick", toString p.tick),
      ("values", Text.braced (p.byName.entries.map fun (name, value) =>
        Text.quoted name ++ ": " ++ Text.truth value))]

end Propositions

/-- Definitions and propositions that advance together. -/
structure Pipeline where
  definitions : Definitions
  propositions : Propositions

namespace Pipeline

def build (definitions : List (String × Rule Value)) (propositions : List (String × Rule Bool))
    (world : World) : Logged (Except ConfigError Pipeline) := do
  match ← Definitions.build definitions world with
  | .error e => pure (.error e)
  | .ok definitions =>
    match ← Propositions.build propositions definitions world with
    | .error e => pure (.error e)
    | .ok propositions => pure (.ok ⟨definitions, propositions⟩)

/-- Definitions go back to tick zero first. They stay there when the propositions fail. -/
def reset (p : Pipeline) (world : World) : Logged (Except EvalError Unit × Pipeline) := do
  match ← p.definitions.reset world with
  | (.error e, definitions) => pure (.error e, { p with definitions })
  | (.ok (), definitions) =>
    let (result, propositions) ← p.propositions.reset definitions world
    pure (result, ⟨definitions, propositions⟩)

/-- Definitions advance first. They stay advanced when the propositions fail. -/
def step (p : Pipeline) (world : World) : Logged (Except EvalError Unit × Pipeline) := do
  match ← p.definitions.step world with
  | (.error e, definitions) => pure (.error e, { p with definitions })
  | (.ok (), definitions) =>
    let (result, propositions) ← p.propositions.step definitions world
    pure (result, ⟨definitions, propositions⟩)

def tick (p : Pipeline) : Tick := p.propositions.tick

def observation (p : Pipeline) : Observation := p.propositions.observation

def alphabet (p : Pipeline) : Alphabet := p.propositions.alphabet

/-- The current propositions over the current definitions. -/
def scope (p : Pipeline) (world : World) : Scope :=
  ⟨world, p.definitions.entries, p.propositions.entries⟩

instance : Evaluator Pipeline where
  alphabet := alphabet
  read world p := ⟨p.tick, p.observation, p.scope world⟩
  reset world p := p.reset world
  step world p := p.step world

end Pipeline

end TemporalRewards
