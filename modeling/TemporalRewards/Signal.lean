import TemporalRewards.Decimal.Layout
import TemporalRewards.Text.Quoted
import TemporalRewards.Trace
import TemporalRewards.Verdict

/-! The signal of one tick: a reward, which properties fired for it, and the
channel that it came through. -/
namespace TemporalRewards

/-- The group of properties that a signal comes from. -/
inductive Channel
  | reward
  | termination
  | success
deriving DecidableEq, Repr

namespace Channel

/-- Whether a signal of the channel ends the episode. -/
def isTerminal : Channel → Bool
  | reward => false
  | termination | success => true

def text : Channel → String
  | reward => "reward"
  | termination => "termination"
  | success => "success"

/-- The name of the channel in a structural dump. -/
def label : Channel → String
  | reward => "Reward"
  | termination => "Termination"
  | success => "Success"

def ofText? : String → Option Channel
  | "reward" => some reward
  | "termination" => some termination
  | "success" => some success
  | _ => none

end Channel

/-- The formulas that fired at a tick, by mode. -/
structure Info where
  violations : List String
  satisfactions : List String
  channel : Option Channel
deriving DecidableEq, Repr

namespace Info

def empty : Info := ⟨[], [], none⟩

def fired (i : Info) : Bool := !i.violations.isEmpty || !i.satisfactions.isEmpty

def isEmpty (i : Info) : Bool := !i.fired && i.channel.isNone

def dump (i : Info) : String :=
  Text.record "Info"
    [("violations", Text.bracketed (i.violations.map Text.quoted)),
      ("satisfactions", Text.bracketed (i.satisfactions.map Text.quoted)),
      ("mode", Text.optional (i.channel.map Channel.label))]

end Info

structure Signal where
  reward : Float
  info : Info
  tick : Tick

def Signal.onChannel (signal : Signal) (channel : Channel) : Signal :=
  { signal with info := { signal.info with channel := some channel } }

/-- Why an episode ended. -/
inductive Ending
  | success
  | termination
  | outOfBounds
deriving DecidableEq, Repr

def Ending.text : Ending → String
  | success => "success"
  | termination => "termination"
  | outOfBounds => "out of bounds"

end TemporalRewards
