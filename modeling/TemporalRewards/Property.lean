import TemporalRewards.Labelling.Rule
import TemporalRewards.Monitor

/-! A property is a monitored formula with a reward. It fires at the ticks at
which its mode triggers on the verdict, and never while it is inactive. -/
namespace TemporalRewards

/-- A reward is evaluated at the ticks at which its property fires. -/
abbrev Reward := Rule Float

def Reward.dump (reward : Reward) : String := Rule.dump Decimal.dump.text reward

/-- A property before its formula is read. -/
structure PropertySpec where
  formula : String
  reward : Reward
  mode : Mode

/-- `fired` tells whether the last evaluation fired. -/
structure Property where
  formula : String
  monitor : Monitor
  reward : Reward
  mode : Mode
  active : Bool
  fired : Bool

namespace Property

def build (spec : PropertySpec) (alphabet : Alphabet) : Except ConfigError Property :=
  match Monitor.compile spec.formula alphabet with
  | .error cause => .error (.formula spec.formula cause)
  | .ok monitor => .ok ⟨spec.formula, monitor, spec.reward, spec.mode, true, false⟩

def verdict (p : Property) : Verdict := p.monitor.verdict

def activate (p : Property) : Property := { p with active := true }

def deactivate (p : Property) : Property := { p with active := false, fired := false }

def reset (p : Property) : Property := { p with monitor := p.monitor.reset, fired := false }

/-- Passes an observation to the monitor, active or not. -/
def check (p : Property) (tick : Tick) (o : Observation) :
    Logged (Except StaleTick Verdict × Property) := do
  let (result, monitor) ← p.monitor.observe tick o
  pure (result, { p with monitor })

/-- Records whether the property fires. -/
def judge (p : Property) (fired : Bool) : Logged (Except StaleTick Bool × Property) :=
  ⟨(.ok fired, { p with fired }), [.judged p.formula p.mode fired]⟩

/-- Tells whether the property fires at an observation, which an inactive
property does not look at. -/
def evaluate (p : Property) (tick : Tick) (o : Observation) :
    Logged (Except StaleTick Bool × Property) :=
  if p.active then do
    match ← p.check tick o with
    | (.error e, p) => pure (.error e, p)
    | (.ok verdict, p) => p.judge (p.mode.triggers verdict)
  else p.judge false

def dump (p : Property) : String :=
  Text.record "Property"
    [("formula", Text.quoted p.formula), ("monitor", p.monitor.dump), ("reward", p.reward.dump),
      ("mode", p.mode.label), ("active", Text.truth p.active), ("status", Text.truth p.fired)]

end Property

end TemporalRewards
