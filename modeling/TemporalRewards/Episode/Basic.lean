import TemporalRewards.Episode.Account
import TemporalRewards.Episode.Agent
import TemporalRewards.RewardScheme

/-! An episode moves agents tick by tick and keeps the account of their rewards.
Frozen agents are not updated but still count towards the bounds. -/
namespace TemporalRewards

/-- What one tick of an episode brings. -/
structure Turn where
  signal : Signal
  ending : Option Ending
  total : Float

def Turn.isDone (t : Turn) : Bool := t.ending.isSome

/-- Bit `i` of `unfrozen` tells that agent `i` is updated. -/
structure Episode where
  agents : List Agent
  bounds : Bounds
  unfrozen : Observation
  rewards : Option RewardScheme
  clip : Clip Float
  decimals : Int
  total : Float
  tick : Tick

namespace Episode

/-- The mask of `count` agents of which none is frozen. -/
def everyone (count : Nat) : Observation := Observation.ofList (List.replicate count true)

/-- At most one agent is the ego, and there is room for a limited number. -/
def build (agents : List Agent) (bounds : Bounds) : Except ConfigError Episode :=
  let egos := agents.countP Agent.isEgo
  if 1 < egos then .error (.multipleEgos egos)
  else if maxAgents < agents.length then .error (.tooManyAgents agents.length)
  else
    .ok
      { agents, bounds
        unfrozen := everyone agents.length
        rewards := none
        clip := ⟨-1.0 / 0.0, 1.0 / 0.0⟩
        decimals := 3
        total := 0.0
        tick := 0 }

def withRewards (e : Episode) (rewards : RewardScheme) : Episode := { e with rewards := some rewards }

/-- Keeps the running total between two values, given in either order. -/
def withClip (e : Episode) (x y : Float) : Episode := { e with clip := ⟨lesser x y, greater y x⟩ }

def withRounding (e : Episode) (decimals : Int) : Episode := { e with decimals }

def ego? (e : Episode) : Option Agent := e.agents.find? Agent.isEgo

def isFrozen (e : Episode) (index : Nat) : Bool :=
  decide (index < e.agents.length) && !e.unfrozen.get index

/-- Freezes or unfreezes an agent, and tells whether there is one with that index. -/
def setFrozen (e : Episode) (index : Nat) (frozen : Bool) : Bool × Episode :=
  if index < e.agents.length then (true, { e with unfrozen := e.unfrozen.put index (!frozen) })
  else (false, e)

def freezeAll (e : Episode) : Episode := { e with unfrozen := Observation.empty }

def unfreezeAll (e : Episode) : Episode := { e with unfrozen := everyone e.agents.length }

/-- The agents that are updated, by index. -/
def unfrozenAgents (e : Episode) : List Nat := (List.range e.agents.length).filter e.unfrozen.get

def agentsInBounds (e : Episode) : Nat := e.agents.countP (·.isWithin e.bounds)

/-- The world in which the reward scheme of an episode is evaluated. Its objects are the agents
and no others. A scheme by itself is evaluated in any world (`RewardScheme.step`); objects that
are no agents of the episode are left out here. -/
def world (e : Episode) (priority : Priority) : World := ⟨Agent.objects e.agents, priority⟩

def assign (e : Episode) (w : Assignment) : Episode := { e with agents := Agent.assign w e.agents }

/-- The order of updates in one tick: the ego first, the others by index, and
frozen agents left out. -/
def updateOrder (e : Episode) : List Nat :=
  let ego := e.agents.findIdx? Agent.isEgo
  (ego.toList ++ (List.range e.agents.length).filter (some · ≠ ego)).filter e.unfrozen.get

/-- Updates one agent by the writes that `update` makes for it. -/
def updateAgent (update : Nat → Agent → List Assignment) (e : Episode) (index : Nat) : Episode :=
  match e.agents[index]? with
  | some agent => (update index agent).foldl assign e
  | none => e

/-- Why the episode ends with a signal, if it does. -/
def ending? (e : Episode) (signal : Signal) : Option Ending :=
  match signal.info.channel with
  | some .success => some .success
  | some .termination => some .termination
  | _ => if e.agentsInBounds = 0 then some .outOfBounds else none

/-- Enters the reward of a signal into the account. -/
def account (e : Episode) (signal : Signal) : Logged (Turn × Episode) := do
  let reward := e.clip.grant e.decimals e.total signal.reward
  let e := { e with total := e.total + reward }
  let signal := { signal with reward }
  let ending := e.ending? signal
  if let some ending := ending then Logged.note (.ended ending signal.tick e.total)
  pure (⟨signal, ending, e.total⟩, e)

/-- The signal of a tick without a reward scheme. -/
def idle (tick : Tick) : Signal := ⟨0.0, Info.empty, tick⟩

/-- Takes over the state and the signal of a reward scheme that ran. -/
def settle (e : Episode) (run : RewardScheme → Logged (Except RunError Signal × RewardScheme)) :
    Logged (Except RunError Turn × Episode) :=
  match e.rewards with
  | none => do
    let (turn, e) ← e.account (idle e.tick)
    pure (.ok turn, e)
  | some rewards => do
    let (result, rewards) ← run rewards
    let e := e.withRewards rewards
    match result with
    | .error error => pure (.error error, e)
    | .ok signal =>
      let (turn, e) ← e.account signal
      pure (.ok turn, e)

/-- Starts the episode again, at tick zero and with an empty account. -/
def reset (e : Episode) (priority : Priority) : Logged (Except RunError Turn × Episode) :=
  let e := { e with total := 0.0, tick := 0 }
  e.settle (·.reset (e.world priority))

/-- Updates the agents that are not frozen and then evaluates the next tick. -/
def step (e : Episode) (priority : Priority) (update : Nat → Agent → List Assignment) :
    Logged (Except RunError Turn × Episode) :=
  let e := e.updateOrder.foldl (updateAgent update) e
  let e := { e with tick := e.tick + 1 }
  e.settle (·.step (e.world priority))

def dump (e : Episode) : String :=
  Text.partialRecord "Episode"
    [("agents", Text.bracketed (e.agents.map Agent.dump)), ("bounds", e.bounds.dump),
      ("tick", toString e.tick), ("total_reward", Decimal.dump.text e.total)]

end Episode

end TemporalRewards
