import TemporalRewards.Checker
import TemporalRewards.Labelling.Pipeline

/-! A reward scheme has three checkers over one pipeline. Every checker sees
every tick. The signal is that of success if a success property fired, else that
of termination if a termination property fired, else the ordinary one. -/
namespace TemporalRewards

structure RewardScheme where
  pipeline : Pipeline
  reward : Checker
  termination : Checker
  success : Checker

namespace RewardScheme

/-- Compiles the properties of the three checkers over the names of a pipeline. -/
def compile (pipeline : Pipeline) (rewards terminations successes : List PropertySpec) :
    Except ConfigError RewardScheme :=
  match Checker.build rewards pipeline.alphabet with
  | .error e => .error e
  | .ok reward =>
    match Checker.build terminations pipeline.alphabet with
    | .error e => .error e
    | .ok termination =>
      match Checker.build successes pipeline.alphabet with
      | .error e => .error e
      | .ok success => .ok ⟨pipeline, reward, termination, success⟩

def build (pipeline : Pipeline) (rewards terminations successes : List PropertySpec) :
    Logged (Except ConfigError RewardScheme) :=
  match compile pipeline rewards terminations successes with
  | .error e => .quiet (.error e)
  | .ok s =>
    ⟨.ok s, [.arranged s.reward.properties.length s.termination.properties.length
      s.success.properties.length pipeline.alphabet.size]⟩

def tick (s : RewardScheme) : Tick := s.pipeline.tick

def checker (s : RewardScheme) : Channel → Checker
  | .reward => s.reward
  | .termination => s.termination
  | .success => s.success

def withChecker (s : RewardScheme) (c : Checker) : Channel → RewardScheme
  | .reward => { s with reward := c }
  | .termination => { s with termination := c }
  | .success => { s with success := c }

def withPipeline (s : RewardScheme) (pipeline : Pipeline) : RewardScheme := { s with pipeline }

/-- The channel whose signal counts, with that signal. -/
def arbitrate (reward termination success : Signal) : Channel × Signal :=
  if success.info.fired then (.success, success)
  else if termination.info.fired then (.termination, termination)
  else (.reward, reward)

/-- Runs the checkers at the current tick, success first. At the first error the
checkers after it do not run. -/
def check (s : RewardScheme) (world : World) : Logged (Except RunError Signal × RewardScheme) := do
  let reading := Evaluator.read world s.pipeline
  let (result, checker) ← s.success.check reading
  let s := { s with success := checker }
  match result with
  | .error e => pure (.error e, s)
  | .ok success =>
    let (result, checker) ← s.termination.check reading
    let s := { s with termination := checker }
    match result with
    | .error e => pure (.error e, s)
    | .ok termination =>
      let (result, checker) ← s.reward.check reading
      let s := { s with reward := checker }
      match result with
      | .error e => pure (.error e, s)
      | .ok reward =>
        let (channel, signal) := arbitrate reward termination success
        let signal := signal.onChannel channel
        if channel.isTerminal then Logged.note (.concluded signal.tick channel signal.reward)
        pure (.ok signal, s)

/-- All three checkers with their properties reset. -/
def rewind (s : RewardScheme) : RewardScheme :=
  { s with
    reward := s.reward.rewind
    termination := s.termination.rewind
    success := s.success.rewind }

/-- Resets the pipeline and then every property, and checks at tick zero. -/
def reset (s : RewardScheme) (world : World) : Logged (Except RunError Signal × RewardScheme) := do
  match ← s.pipeline.reset world with
  | (.error e, pipeline) => pure (.error (.evaluation e), s.withPipeline pipeline)
  | (.ok (), pipeline) => (s.withPipeline pipeline).rewind.check world

/-- Advances the pipeline by one tick and checks there. -/
def step (s : RewardScheme) (world : World) : Logged (Except RunError Signal × RewardScheme) := do
  match ← s.pipeline.step world with
  | (.error e, pipeline) => pure (.error (.evaluation e), s.withPipeline pipeline)
  | (.ok (), pipeline) => (s.withPipeline pipeline).check world

end RewardScheme

end TemporalRewards
