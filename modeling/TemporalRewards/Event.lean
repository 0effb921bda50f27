import TemporalRewards.Error
import TemporalRewards.Formula.Text
import TemporalRewards.Signal

/-! What is worth a record in a log. A call answers with the events it met, in
order; the text of an event is fixed here. -/
namespace TemporalRewards

/-- How much a record matters; a lower level is more detail. -/
inductive Level
  | trace
  | debug
  | info
deriving DecidableEq, Repr

namespace Level

def rank : Level → Nat
  | trace => 0
  | debug => 1
  | info => 2

def text : Level → String
  | trace => "TRACE"
  | debug => "DEBUG"
  | info => "INFO"

end Level

inductive Event
  /-- A monitor took in an observation. -/
  | observed (formula : Formula) (verdict : Verdict) (tick : Tick)
  /-- An observation settled the verdict of a monitor. -/
  | settled (formula : Formula) (verdict : Verdict) (tick : Tick)
  | evaluated (count : Nat) (table : TableKind) (tick : Tick)
  | judged (formula : String) (mode : Mode) (fired : Bool)
  | rewarded (tick : Tick) (reward : Float) (info : Info)
  | arranged (rewards terminations successes propositions : Nat)
  | concluded (tick : Tick) (channel : Channel) (reward : Float)
  | ended (ending : Ending) (tick : Tick) (total : Float)
  | granted (claimant : String)
  | released (claimant : String)

namespace Event

def level : Event → Level
  | observed .. | evaluated .. | judged .. => .trace
  | settled .. | rewarded .. | concluded .. | granted .. | released .. => .debug
  | arranged .. | ended .. => .info

def message : Event → String
  | observed formula verdict tick => s!"formula {formula.text} is {verdict.text} at tick {tick}"
  | settled formula verdict tick => s!"formula {formula.text} settled to {verdict.text} at tick {tick}"
  | evaluated count table tick => s!"evaluated {count} {table.text} at tick {tick}"
  | judged formula mode fired =>
    s!"property \"{formula}\" ({mode.text}) fired: {Text.truth fired}"
  | rewarded tick reward info =>
    s!"tick {tick}: reward {Decimal.plain.text reward} from {info.dump}"
  | arranged rewards terminations successes propositions =>
    s!"reward structure with {rewards} reward, {terminations} termination and {successes} success " ++
      s!"properties over {propositions} propositions"
  | concluded tick channel reward =>
    s!"tick {tick}: {channel.text} with reward {Decimal.plain.text reward}"
  | ended ending tick total =>
    s!"episode ended by {ending.text} at tick {tick} with total reward {Decimal.plain.text total}"
  | granted claimant => s!"priority granted to {claimant}"
  | released claimant => s!"priority released by {claimant}"

/-- The line of an event in a log. -/
def line (e : Event) : String := e.level.text ++ " " ++ e.message

/-- Whether a log kept at `threshold` shows the event. -/
def visibleAt (threshold : Level) (e : Event) : Bool := threshold.rank ≤ e.level.rank

end Event

/-- An answer and the events met on the way to it. -/
structure Logged (α : Type) where
  value : α
  events : List Event

namespace Logged

variable {α β : Type}

def quiet (value : α) : Logged α := ⟨value, []⟩

def note (event : Event) : Logged Unit := ⟨(), [event]⟩

def andThen (first : Logged α) (next : α → Logged β) : Logged β :=
  ⟨(next first.value).value, first.events ++ (next first.value).events⟩

instance : Monad Logged where
  pure := quiet
  bind := andThen

@[simp] theorem value_pure (a : α) : (pure a : Logged α).value = a := rfl

@[simp] theorem events_pure (a : α) : (pure a : Logged α).events = [] := rfl

@[simp] theorem value_bind (first : Logged α) (next : α → Logged β) :
    (first >>= next).value = (next first.value).value := rfl

@[simp] theorem events_bind (first : Logged α) (next : α → Logged β) :
    (first >>= next).events = first.events ++ (next first.value).events := rfl

end Logged

end TemporalRewards
