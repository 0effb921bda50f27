import TemporalRewards.Proofs.RewardScheme.Blueprint
import TemporalRewards.Proofs.RewardScheme.Evaluation

/-! Runs of a scheme: a reset and then steps, all of them successful. Every property
of every checker sees every tick, also the ticks at which its channel loses, so the
signal of a run is a function of what the pipeline showed. -/
namespace TemporalRewards

namespace Pipeline

variable {p after : Pipeline} {history : List Reading} {world : World}

/-- What a pipeline shows from a reset on, each tick in the world of its evaluation. -/
inductive Runs (p : Pipeline) : List Reading → Pipeline → Prop where
  | reset {world : World} {after : Pipeline} : (p.reset world).value = (.ok (), after) →
      Runs p [Evaluator.read world after] after
  | step {world : World} {history : List Reading} {before after : Pipeline} :
      Runs p history before → (before.step world).value = (.ok (), after) →
      Runs p (history ++ [Evaluator.read world after]) after

theorem reset_tick (succeeded : (p.reset world).value = (.ok (), after)) : after.tick = 0 :=
  (call_outcome (c := .reset) succeeded).tick_ok

theorem step_tick (succeeded : (p.step world).value = (.ok (), after)) :
    after.tick = p.tick + 1 :=
  (call_outcome (c := .step) succeeded).tick_ok

/-- The readings of a run are those of ticks zero, one, and so on. -/
theorem Runs.ticks (run : Runs p history after) :
    history.map (·.tick) = List.range history.length ∧ after.tick + 1 = history.length := by
  induction run with
  | reset succeeded =>
    have zero := reset_tick succeeded
    exact ⟨congrArg (fun tick => [tick]) zero, congrArg (· + 1) zero⟩
  | @step world history before after _ succeeded ih =>
    obtain ⟨ticks, last⟩ := ih
    have next : after.tick = history.length := (step_tick succeeded).trans last
    constructor
    · rw [List.map_append, ticks, List.length_append, List.length_singleton, List.range_succ]
      exact congrArg (fun tick => List.range history.length ++ [tick]) next
    · rw [next, List.length_append, List.length_singleton]

end Pipeline

namespace RewardScheme

variable {s before after : RewardScheme} {world : World} {signal : Signal} {history : List Reading}

/-- The scheme after a reading that all its properties accept. -/
def see (s : RewardScheme) (r : Reading) : RewardScheme :=
  ⟨s.pipeline, s.reward.see r, s.termination.see r, s.success.see r⟩

theorem checker_see (s : RewardScheme) (r : Reading) (channel : Channel) :
    (s.see r).checker channel = (s.checker channel).see r := by
  cases channel <;> rfl

/-- The first channel, from success down, at which something fired. -/
def decisive {α : Type} (fired : Channel → List α) : Channel :=
  if (fired .success).isEmpty then
    if (fired .termination).isEmpty then .reward else .termination
  else .success

theorem arbitrate_eq (s : RewardScheme) (tick : Tick) (firings : Channel → List Firing) :
    arbitrate (s.reward.signalOf tick (firings .reward))
        (s.termination.signalOf tick (firings .termination))
        (s.success.signalOf tick (firings .success)) =
      (decisive firings,
        (s.checker (decisive firings)).signalOf tick (firings (decisive firings))) := by
  unfold decisive
  cases success : (firings .success).isEmpty with
  | false => simp only [arbitrate, Checker.signalOf_fired, success]; rfl
  | true =>
    cases termination : (firings .termination).isEmpty with
    | false => simp only [arbitrate, Checker.signalOf_fired, success, termination]; rfl
    | true => simp only [arbitrate, Checker.signalOf_fired, success, termination]; rfl

theorem check_ok (checked : (s.check world).value = (.ok signal, after)) :
    after = s.see (Evaluator.read world s.pipeline) ∧ ∃ firings : Channel → List Firing,
      (∀ channel, Checker.Fires (Evaluator.read world s.pipeline)
        (after.checker channel).properties (firings channel)) ∧
      signal = ((s.checker (decisive firings)).signalOf s.pipeline.tick
        (firings (decisive firings))).onChannel (decisive firings) := by
  unfold check at checked
  rcases success : (s.success.check (Evaluator.read world s.pipeline)).value with ⟨_ | first, c₁⟩
  · simp [success] at checked
  obtain ⟨rfl, firings₁, fires₁, rfl⟩ := Checker.check_ok success
  rcases termination : (s.termination.check (Evaluator.read world s.pipeline)).value with
    ⟨_ | second, c₂⟩
  · simp [success, termination] at checked
  obtain ⟨rfl, firings₂, fires₂, rfl⟩ := Checker.check_ok termination
  rcases reward : (s.reward.check (Evaluator.read world s.pipeline)).value with ⟨_ | third, c₃⟩
  · simp [success, termination, reward] at checked
  obtain ⟨rfl, firings₃, fires₃, rfl⟩ := Checker.check_ok reward
  simp only [Logged.value_bind, success, termination, reward] at checked
  have answer : signal = Signal.onChannel
        (arbitrate (s.reward.signalOf s.pipeline.tick firings₃)
          (s.termination.signalOf s.pipeline.tick firings₂)
          (s.success.signalOf s.pipeline.tick firings₁)).2
        (arbitrate (s.reward.signalOf s.pipeline.tick firings₃)
          (s.termination.signalOf s.pipeline.tick firings₂)
          (s.success.signalOf s.pipeline.tick firings₁)).1 ∧
      after = s.see (Evaluator.read world s.pipeline) := by
    split at checked
    all_goals
      simp only [Logged.value_bind, Logged.value_pure, Prod.mk.injEq, Except.ok.injEq] at checked
      exact ⟨checked.1.symm, checked.2.symm⟩
  obtain ⟨decided, rfl⟩ := answer
  refine ⟨rfl, Channel.select firings₃ firings₂ firings₁, ?_, decided.trans ?_⟩
  · intro channel
    cases channel with
    | reward => exact fires₃
    | termination => exact fires₂
    | success => exact fires₁
  · exact congrArg (fun d => Signal.onChannel d.2 d.1)
      (arbitrate_eq s s.pipeline.tick (Channel.select firings₃ firings₂ firings₁))

/-- A reset and then steps, all of them successful, with what the pipeline showed
after each and the signal of the last. -/
inductive Runs (s : RewardScheme) : List Reading → Signal → RewardScheme → Prop where
  | reset {world : World} {signal : Signal} {after : RewardScheme} :
      (s.reset world).value = (.ok signal, after) →
      Runs s [Evaluator.read world after.pipeline] signal after
  | step {world : World} {history : List Reading} {earlier signal : Signal}
      {before after : RewardScheme} : Runs s history earlier before →
      (before.step world).value = (.ok signal, after) →
      Runs s (history ++ [Evaluator.read world after.pipeline]) signal after

theorem reset_ok (succeeded : (s.reset world).value = (.ok signal, after)) :
    ∃ pipeline, (s.pipeline.reset world).value = (.ok (), pipeline) ∧
      ((s.withPipeline pipeline).rewind.check world).value = (.ok signal, after) := by
  rw [reset, Logged.value_bind] at succeeded
  rcases answer : (s.pipeline.reset world).value with ⟨_ | _, pipeline⟩
  · simp [answer] at succeeded
  · rw [answer] at succeeded
    exact ⟨pipeline, rfl, succeeded⟩

theorem step_ok (succeeded : (s.step world).value = (.ok signal, after)) :
    ∃ pipeline, (s.pipeline.step world).value = (.ok (), pipeline) ∧
      ((s.withPipeline pipeline).check world).value = (.ok signal, after) := by
  rw [step, Logged.value_bind] at succeeded
  rcases answer : (s.pipeline.step world).value with ⟨_ | _, pipeline⟩
  · simp [answer] at succeeded
  · rw [answer] at succeeded
    exact ⟨pipeline, rfl, succeeded⟩

/-- The checkers have no part in what the pipeline shows. -/
theorem Runs.pipeline (run : Runs s history signal after) :
    s.pipeline.Runs history after.pipeline := by
  induction run with
  | reset succeeded =>
    obtain ⟨pipeline, shown, checked⟩ := reset_ok succeeded
    obtain ⟨rfl, _⟩ := check_ok checked
    exact .reset shown
  | step _ succeeded ih =>
    obtain ⟨pipeline, shown, checked⟩ := step_ok succeeded
    obtain ⟨rfl, _⟩ := check_ok checked
    exact .step ih shown

/-- Every property of every checker has seen the whole history since the reset. -/
theorem Runs.checker (run : Runs s history signal after) (channel : Channel) :
    after.checker channel = { s.checker channel with
      properties := (s.checker channel).properties.map fun p => p.reset.follow history } := by
  induction run with
  | @reset world _ after succeeded =>
    obtain ⟨pipeline, _, checked⟩ := reset_ok succeeded
    obtain ⟨rfl, _⟩ := check_ok checked
    rw [checker_see]
    cases channel with
    | reward | termination | success =>
      simp only [Checker.see, RewardScheme.checker, rewind, withPipeline, Checker.rewind,
        List.map_map]
      rfl
  | @step world history _ _ before after _ succeeded ih =>
    obtain ⟨pipeline, _, checked⟩ := step_ok succeeded
    obtain ⟨rfl, _⟩ := check_ok checked
    have same : (before.withPipeline pipeline).checker channel = before.checker channel := by
      cases channel <;> rfl
    rw [checker_see, same, ih]
    simp only [Checker.see, List.map_map, Function.comp_def, Property.follow_append]
    rfl

/-- The signal of a run is made of what fired at the last reading. -/
theorem Runs.signal_eq (run : Runs s history signal after) : ∃ earlier now,
    history = earlier ++ [now] ∧ ∃ firings : Channel → List Firing,
      (∀ channel, Checker.Fires now (after.checker channel).properties (firings channel)) ∧
      signal = ((s.checker (decisive firings)).signalOf now.tick
        (firings (decisive firings))).onChannel (decisive firings) := by
  -- Only the combination of a checker counts, and no run changes it.
  have combined : ∀ {t : RewardScheme} {tick : Tick} {firings : List Firing} {channel : Channel},
      (t.checker channel).combine = (s.checker channel).combine →
      (t.checker channel).signalOf tick firings = (s.checker channel).signalOf tick firings := by
    intro t tick firings channel same
    rw [Checker.signalOf, same]
    rfl
  cases run with
  | @reset world _ _ succeeded =>
    obtain ⟨pipeline, _, checked⟩ := reset_ok succeeded
    obtain ⟨rfl, firings, fires, rfl⟩ := check_ok checked
    refine ⟨[], _, rfl, firings, fires, congrArg (Signal.onChannel · _) (combined ?_)⟩
    cases decisive firings <;> rfl
  | @step world history _ _ before _ run succeeded =>
    obtain ⟨pipeline, _, checked⟩ := step_ok succeeded
    obtain ⟨rfl, firings, fires, rfl⟩ := check_ok checked
    refine ⟨history, _, rfl, firings, fires, congrArg (Signal.onChannel · _) (combined ?_)⟩
    have kept := congrArg Checker.combine (run.checker (decisive firings))
    rw [← kept]
    cases decisive firings <;> rfl

end RewardScheme

end TemporalRewards
