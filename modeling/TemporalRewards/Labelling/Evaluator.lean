import TemporalRewards.Scope

/-! Evaluators label each tick with an observation. They can be set back to tick
zero and advanced one tick at a time, and either may fail. -/
namespace TemporalRewards

/-- What an evaluator shows at its current tick. -/
structure Reading where
  tick : Tick
  observation : Observation
  scope : Scope

class Evaluator (ε : Type) where
  alphabet : ε → Alphabet
  /-- The current tick, its observation, and what rewards may read in a world. -/
  read : World → ε → Reading
  reset : World → ε → Logged (Except EvalError Unit × ε)
  step : World → ε → Logged (Except EvalError Unit × ε)

namespace Evaluator

variable {ε δ : Type}

/-- The run of one of two evaluators as a run of either. -/
def runEither (wrap : ε → δ) (run : Logged (Except EvalError Unit × ε)) :
    Logged (Except EvalError Unit × δ) := do
  let (result, after) ← run
  pure (result, wrap after)

/-- Either of two evaluators. -/
instance [Evaluator ε] [Evaluator δ] : Evaluator (ε ⊕ δ) where
  alphabet
    | .inl e => alphabet e
    | .inr e => alphabet e
  read world
    | .inl e => read world e
    | .inr e => read world e
  reset world
    | .inl e => runEither .inl (reset world e)
    | .inr e => runEither .inr (reset world e)
  step world
    | .inl e => runEither .inl (step world e)
    | .inr e => runEither .inr (step world e)

end Evaluator

end TemporalRewards
