import TemporalRewards.Proofs.RewardScheme.Runs

/-! The signal of a run as a function of what the pipeline showed since the reset,
without any state of checkers or monitors. -/
namespace TemporalRewards

/-- Whether a fresh monitor of the declared formula that is given a history in order
ends with a verdict that the mode fires on. -/
def PropertySpec.firesAfter (spec : PropertySpec) (alphabet : Alphabet) (history : List Reading) :
    Bool :=
  match Monitor.compile spec.formula alphabet with
  | .error _ => false
  | .ok fresh =>
    match (fresh.observeAll (Reading.observations history)).value.1 with
    | .error _ => false
    | .ok verdicts => verdicts.getLast?.any fun v => spec.mode.triggers v.2

namespace RewardScheme

/-- The declared properties of a channel, each with whether it is active. -/
def declarations (s : RewardScheme) (channel : Channel) : List (PropertySpec × Bool) :=
  (s.checker channel).properties.map fun p => (p.blueprint.1, p.active)

/-- The declarations that fire after a history, in order. -/
def firedAfter (alphabet : Alphabet) (history : List Reading)
    (declarations : List (PropertySpec × Bool)) : List PropertySpec :=
  (declarations.filter fun d => d.2 && d.1.firesAfter alphabet history).map (·.1)

def formulasOf (mode : Mode) (specs : List PropertySpec) : List String :=
  (specs.filter (·.mode = mode)).map (·.formula)

/-- One more reward behind those before it. Before the first there is nothing to combine it with. -/
def combineNext (combine : Float → Float → Float) : Option Float → Float → Float
  | none, reward => reward
  | some before, reward => combine before reward

/-- The rewards combined one behind the other, in their order; none give zero. -/
def combined (combine : Float → Float → Float) (rewards : List Float) : Float :=
  (rewards.foldl (fun before reward => some (combineNext combine before reward)) none).getD 0.0

/-- The signal that a history asks for: of the first channel, from success down, at
which a declaration fires, with the rewards in the scope of the last reading. -/
def reference (alphabet : Alphabet) (declarations : Channel → List (PropertySpec × Bool))
    (combine : Channel → Float → Float → Float) (history : List Reading) (now : Reading) :
    Except EvalError Signal :=
  let fired : Channel → List PropertySpec := fun channel =>
    firedAfter alphabet history (declarations channel)
  let channel := decisive fired
  let answer := fun rewards =>
    { reward := combined (combine channel) rewards
      info :=
        { violations := formulasOf .violation (fired channel)
          satisfactions := formulasOf .satisfaction (fired channel)
          channel := some channel }
      tick := now.tick }
  ((fired channel).mapM fun (spec : PropertySpec) =>
    spec.reward.evaluate now.scope now.tick).map answer

end RewardScheme

namespace Property

variable {p : Property} {history : List Reading}

theorem see_blueprint (p : Property) (r : Reading) : (p.see r).blueprint = p.blueprint := by
  unfold see
  split <;> rfl

theorem see_active (p : Property) (r : Reading) : (p.see r).active = p.active := by
  unfold see
  split <;> rfl

theorem follow_kept (p : Property) (history : List Reading) :
    (p.follow history).blueprint = p.blueprint ∧ (p.follow history).active = p.active := by
  induction history using List.reverseRecOn with
  | nil => exact ⟨rfl, rfl⟩
  | append_singleton history r ih =>
    rw [follow_append, see_blueprint, see_active]
    exact ih

/-- An active property hands every reading to its monitor. -/
theorem follow_monitor (active : p.active = true) (history : List Reading) :
    (p.follow history).monitor = p.monitor.replay (Reading.observations history) := by
  induction history using List.reverseRecOn with
  | nil => rfl
  | append_singleton history r ih =>
    have stays : (p.follow history).active = true := (follow_kept p history).2.trans active
    rw [follow_append, see, if_pos stays, Reading.observations, List.map_append,
      List.map_singleton, Monitor.replay_append, ih]
    rfl

/-- After a reset a property fires just when it is active and a fresh monitor that is
given the whole history ends with a verdict that fires it. -/
theorem follow_fired {alphabet : Alphabet} {now : Reading}
    (compiled : Monitor.compile p.formula alphabet = .ok (.start p.monitor.formula))
    (increasing : (Reading.observations (history ++ [now])).Pairwise fun a b => a.1 < b.1) :
    (p.reset.follow (history ++ [now])).fired =
      (p.active && p.blueprint.1.firesAfter alphabet (history ++ [now])) := by
  rw [follow_append]
  have kept := (follow_kept p.reset history).2
  cases active : p.active with
  | false =>
    have stays : (p.reset.follow history).active = false := kept.trans active
    rw [see, if_neg (by rw [stays]; decide)]
    rfl
  | true =>
    have stays : (p.reset.follow history).active = true := kept.trans active
    have mode : (p.reset.follow history).mode = p.mode :=
      congrArg (·.1.mode) (follow_kept p.reset history).1
    have seen := follow_monitor (p := p.reset) active (history ++ [now])
    rw [follow_append] at seen
    obtain ⟨verdicts, answer, last⟩ := Monitor.observeAll_eq (m := .start p.monitor.formula)
      increasing (fun last known => by contradiction)
    have final : (Reading.observations (history ++ [now])).getLast? =
        some (now.tick, now.observation) := by
      rw [Reading.observations, List.map_append]
      exact List.getLast?_concat
    rw [final, Option.map_some] at last
    have fresh : p.blueprint.1.firesAfter alphabet (history ++ [now]) =
        p.mode.triggers ((Monitor.start p.monitor.formula).replay
          (Reading.observations (history ++ [now]))).verdict := by
      rw [PropertySpec.firesAfter, show p.blueprint.1.formula = p.formula from rfl, compiled]
      dsimp only
      rw [answer]
      dsimp only
      rw [last]
      rfl
    rw [fresh, Bool.true_and]
    rw [see, if_pos stays] at seen ⊢
    dsimp only at seen ⊢
    rw [seen, mode]
    rfl

end Property

namespace RewardScheme

section Reference

variable {s built after : RewardScheme} {signal : Signal} {history : List Reading} {now : Reading}
  {alphabet : Alphabet} {firings : List Firing}

/-- What fired among properties that followed a history is what their declarations
fire after it. -/
theorem fires_firedAfter {properties : List Property}
    (compiled : ∀ p ∈ properties,
      Monitor.compile p.formula alphabet = .ok (.start p.monitor.formula))
    (increasing : (Reading.observations (history ++ [now])).Pairwise fun a b => a.1 < b.1)
    (fires : Checker.Fires now (properties.map fun p => p.reset.follow (history ++ [now])) firings)
    {fired : List PropertySpec} (declared : fired = firedAfter alphabet (history ++ [now])
      (properties.map fun p => (p.blueprint.1, p.active))) :
    fired.mapM (fun spec => spec.reward.evaluate now.scope now.tick) =
        .ok (firings.map (·.reward)) ∧
      fired.map (fun spec => (spec.formula, spec.mode)) =
        firings.map (fun f => (f.formula, f.mode)) := by
  let chosen := properties.filter fun p =>
    p.active && p.blueprint.1.firesAfter alphabet (history ++ [now])
  have followed : (properties.map fun p => p.reset.follow (history ++ [now])).filter (·.fired) =
      chosen.map fun p => p.reset.follow (history ++ [now]) := by
    rw [List.filter_map]
    exact congrArg (List.map _) (List.filter_congr fun p member =>
      Property.follow_fired (compiled p member) increasing)
  have specs : fired = chosen.map (·.blueprint.1) := by
    rw [declared, firedAfter, List.filter_map, List.map_map]
    rfl
  have kept : ∀ p : Property, (p.reset.follow (history ++ [now])).blueprint.1 = p.blueprint.1 :=
    fun p => congrArg (·.1) (Property.follow_kept p.reset (history ++ [now])).1
  obtain ⟨rewards, texts⟩ := fires
  rw [followed, List.mapM_map] at rewards
  rw [followed, List.map_map] at texts
  rw [specs, List.mapM_map, List.map_map, ← rewards, ← texts]
  constructor
  · refine congrArg (fun f => List.mapM f chosen) ?_
    funext p
    exact congrArg (fun spec : PropertySpec => spec.reward.evaluate now.scope now.tick)
      (kept p).symm
  · apply List.map_congr_left
    intro p _
    exact congrArg (fun spec : PropertySpec => (spec.formula, spec.mode)) (kept p).symm

/-- The fold that is seeded with the first reward has no term in front of it. -/
theorem total_eq_combined (combine : Float → Float → Float) (rewards : List Float) :
    Checker.total combine rewards = combined combine rewards := by
  have seeded (sum : Float) (rest : List Float) :
      rest.foldl (fun before reward => some (combineNext combine before reward)) (some sum) =
        some (rest.foldl combine sum) := by
    induction rest generalizing sum with
    | nil => rfl
    | cons reward rest ih => exact ih (combine sum reward)
  cases rewards with
  | nil => rfl
  | cons first rest => exact (congrArg (Option.getD · 0.0) (seeded first rest)).symm

theorem formulasOf_eq {fired : List PropertySpec}
    (same : fired.map (fun spec => (spec.formula, spec.mode)) =
      firings.map (fun f => (f.formula, f.mode))) (mode : Mode) :
    formulasOf mode fired = Firing.formulas mode firings := by
  have specs : formulasOf mode fired =
      ((fired.map fun spec => (spec.formula, spec.mode)).filter (·.2 = mode)).map (·.1) := by
    rw [List.filter_map, List.map_map]
    rfl
  have fires : Firing.formulas mode firings =
      ((firings.map fun f => (f.formula, f.mode)).filter (·.2 = mode)).map (·.1) := by
    rw [List.filter_map, List.map_map]
    rfl
  rw [specs, same, fires]

theorem decisive_congr {α β : Type} {xs : Channel → List α} {ys : Channel → List β}
    (same : ∀ channel, (xs channel).isEmpty = (ys channel).isEmpty) :
    decisive xs = decisive ys := by
  rw [decisive, decisive, same, same]

/-- The signal of a run is the reference of the history that the pipeline showed since
the reset: for a scheme as it was built, however it was used since, with the declared
properties in their order and those of them active that are active at the reset. -/
theorem Runs.signal_eq_reference {pipeline : Pipeline}
    {rewards terminations successes : List PropertySpec}
    (compiled : compile pipeline rewards terminations successes = .ok built)
    (used : Used built s) (run : Runs s history signal after) :
    (∀ channel, (s.declarations channel).map (·.1) =
        Channel.select rewards terminations successes channel) ∧
      s.pipeline.Runs history after.pipeline ∧
      history.map (·.tick) = List.range history.length ∧
      ∃ earlier now, history = earlier ++ [now] ∧ signal.tick = earlier.length ∧
        reference pipeline.alphabet s.declarations (fun channel => (s.checker channel).combine)
          history now = .ok signal := by
  obtain ⟨rfl, declares⟩ := compile_ok compiled
  obtain ⟨names, same⟩ := used.alike
  have declares : ∀ channel, Declares built.pipeline.alphabet
      (Channel.select rewards terminations successes channel) (s.checker channel).blueprints :=
    fun channel => same channel ▸ declares channel
  have ticks := run.pipeline.ticks.1
  refine ⟨?_, run.pipeline, ticks, ?_⟩
  · intro channel
    rw [declarations, List.map_map]
    have declared := (declares channel).declared
    rwa [Checker.blueprints, List.map_map] at declared
  obtain ⟨earlier, now, rfl, firings, fires, signals⟩ := run.signal_eq
  have increasing : (Reading.observations (earlier ++ [now])).Pairwise fun a b => a.1 < b.1 := by
    refine Monitor.increasing_of_ticks (n := (earlier ++ [now]).length) ?_
    rw [Reading.observations, List.map_map]
    exact ticks
  have each : ∀ channel,
      (firedAfter built.pipeline.alphabet (earlier ++ [now]) (s.declarations channel)).mapM
          (fun spec => spec.reward.evaluate now.scope now.tick) =
        .ok ((firings channel).map (·.reward)) ∧
      (firedAfter built.pipeline.alphabet (earlier ++ [now]) (s.declarations channel)).map
          (fun spec => (spec.formula, spec.mode)) =
        (firings channel).map (fun f => (f.formula, f.mode)) := by
    intro channel
    have fires := fires channel
    rw [run.checker channel] at fires
    refine fires_firedAfter ?_ increasing fires rfl
    intro p member
    exact (declares channel).compiled p.blueprint (List.mem_map_of_mem member)
  have channels : decisive (fun channel => firedAfter built.pipeline.alphabet (earlier ++ [now])
      (s.declarations channel)) = decisive firings := by
    apply decisive_congr
    intro channel
    have empty := congrArg List.isEmpty (each channel).2
    rwa [List.isEmpty_map, List.isEmpty_map] at empty
  have tick : now.tick = earlier.length := by
    have last := congrArg List.getLast? ticks
    rw [List.map_append, List.length_append, List.length_singleton, List.range_succ] at last
    simpa using last
  refine ⟨earlier, now, rfl, by rw [signals]; exact tick, ?_⟩
  obtain ⟨total, texts⟩ := each (decisive firings)
  rw [reference]
  dsimp only
  rw [channels, total, formulasOf_eq texts, formulasOf_eq texts, signals]
  dsimp only [Except.map]
  rw [← total_eq_combined]
  rfl

/-- One proposition, which holds from tick one on. -/
def late : Pipeline :=
  { definitions := ⟨⟨.definitions, [], .nil⟩, 0, []⟩
    propositions :=
      ⟨⟨.propositions, [("c", .computed fun _ tick => .ok (decide (1 ≤ tick)))], by decide⟩, 0, []⟩ }

def lateScheme : RewardScheme :=
  { pipeline := late
    reward := ⟨[⟨"true", .start .top, .constant 2, .satisfaction, true, false⟩],
      fun left right => left + right⟩
    termination :=
      ⟨[⟨"F c", .start (.eventually (.atom 0)), .constant (-1), .satisfaction, true, false⟩,
        ⟨"c", .start (.atom 0), .constant 3, .satisfaction, true, false⟩,
        ⟨"G c", .start (.always (.atom 0)), .constant 5, .violation, true, false⟩],
        fun left right => left + right⟩
    success := ⟨[], fun left right => left + right⟩ }

/-- Here the rewards of a termination are multiplied. -/
def lateProduct : RewardScheme :=
  lateScheme.withChecker (lateScheme.termination.withCombine fun left right => left * right)
    .termination

/-- A run of two ticks. All three properties of the termination fire at the second one, and the
product is that of their rewards alone. -/
theorem signal_eq_reference_late : ∃ history signal after, Runs lateProduct history signal after ∧
    signal.info = ⟨["G c"], ["F c", "c"], some .termination⟩ ∧ signal.reward = -1 * 3 * 5 ∧
    ∃ earlier now, history = earlier ++ [now] ∧ signal.tick = earlier.length ∧
      reference late.alphabet lateProduct.declarations
        (fun channel => (lateProduct.checker channel).combine) history now = .ok signal := by
  have compiled : compile late [⟨"true", .constant 2, .satisfaction⟩]
      [⟨"F c", .constant (-1), .satisfaction⟩, ⟨"c", .constant 3, .satisfaction⟩,
        ⟨"G c", .constant 5, .violation⟩] [] = .ok lateScheme := by
    have constant : parseFormula "true" late.alphabet = .ok .top := by decide +kernel
    have sometime : parseFormula "F c" late.alphabet = .ok (.eventually (.atom 0)) := by
      decide +kernel
    have present : parseFormula "c" late.alphabet = .ok (.atom 0) := by decide +kernel
    have always : parseFormula "G c" late.alphabet = .ok (.always (.atom 0)) := by decide +kernel
    simp only [compile, Checker.build, Checker.buildProperties, Property.build, Monitor.compile,
      constant, sometime, present, always]
    rfl
  have used : Used lateScheme lateProduct := .combine .termination _ .fresh
  have first : Runs lateProduct _ _ _ := .reset (rfl : (lateProduct.reset World.empty).value = _)
  have second : Runs lateProduct _ _ _ :=
    .step first (rfl : (RewardScheme.step _ World.empty).value = _)
  obtain ⟨_, _, _, asked⟩ := Runs.signal_eq_reference compiled used second
  exact ⟨_, _, _, second, rfl, rfl, asked⟩

end Reference

end RewardScheme

end TemporalRewards
