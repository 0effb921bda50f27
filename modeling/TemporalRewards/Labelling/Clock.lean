import TemporalRewards.Labelling.Evaluator
import TemporalRewards.Labelling.Rule

/-! Labelling by the clock: the truth of each proposition is a function of the
tick alone. Rewards see no objects beside it. -/
namespace TemporalRewards

structure ClockLabelling where
  rules : List (String × (Tick → Bool))
  tick : Tick
  observation : Observation
  entries : List Entry

namespace ClockLabelling

def alphabet (c : ClockLabelling) : Alphabet := ⟨c.rules.map (·.1)⟩

/-- The observation at any tick. -/
def sample (c : ClockLabelling) (tick : Tick) : Observation :=
  Observation.ofList (c.rules.map fun (_, rule) => rule tick)

/-- The truth values in order, as the current observation has them. -/
def values (c : ClockLabelling) : List (String × Bool) :=
  c.alphabet.names.zip (c.observation.toList c.rules.length)

/-- Samples the rules at a tick and reads the entries back from the observation. -/
def evaluateAt (c : ClockLabelling) (tick : Tick) : ClockLabelling :=
  let sampled := { c with tick, observation := c.sample tick }
  { sampled with entries := sampled.values.map fun (name, value) => (name, .bool value) }

def reset (c : ClockLabelling) : ClockLabelling := c.evaluateAt 0

def step (c : ClockLabelling) : ClockLabelling := c.evaluateAt (c.tick + 1)

/-- The alphabet with more names, none of which it may have before. -/
def enroll (alphabet : Alphabet) : List String → Except ConfigError Alphabet
  | [] => .ok alphabet
  | name :: rest =>
    match alphabet.index? name with
    | some _ => .error (.duplicateName .propositions name)
    | none => enroll (alphabet.push name) rest

/-- A labelling at tick zero, with distinct names and room for all of them in an observation. -/
def build (rules : List (String × (Tick → Bool))) : Except ConfigError ClockLabelling :=
  match enroll .empty (rules.map (·.1)) with
  | .error e => .error e
  | .ok _ =>
    if rules.length ≤ Observation.capacity then .ok (reset ⟨rules, 0, .empty, []⟩)
    else .error (.tooManyPropositions rules.length)

def get? (c : ClockLabelling) (name : String) : Option Bool :=
  (c.alphabet.index? name).map c.observation.get

/-- The current truth values by name. -/
def byName (c : ClockLabelling) : SortedMap String Bool := SortedMap.ofList c.values

/-- The observations from tick `start` up to `stop`. -/
def trace (c : ClockLabelling) (start stop : Tick) : Trace Observation :=
  SortedMap.ofList ((List.range' start (stop - start)).map fun tick => (tick, c.sample tick))

def scope (c : ClockLabelling) (world : World) : Scope :=
  ⟨{ world with objects := SortedMap.empty }, [], c.entries⟩

instance : Evaluator ClockLabelling where
  alphabet := alphabet
  read world c := ⟨c.tick, c.observation, c.scope world⟩
  reset _ c := pure (.ok (), c.reset)
  step _ c := pure (.ok (), c.step)

def dump (c : ClockLabelling) : String :=
  Text.record "ClockedPropositions"
    [("alphabet", Text.record "Alphabet" [("names", Text.bracketed (c.alphabet.names.map Text.quoted))]),
      ("tick", toString c.tick), ("bits", "Bits(" ++ toString c.observation.toNat ++ ")")]

end ClockLabelling

end TemporalRewards
