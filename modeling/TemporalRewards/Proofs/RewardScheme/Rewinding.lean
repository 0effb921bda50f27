import TemporalRewards.Proofs.Labelling.Failures
import TemporalRewards.Proofs.RewardScheme.Punctuality

/-! What a reset leaves of the past. The tables keep their rules whatever is called, and the
properties keep their declarations, so that two schemes of one configuration differ in their
ticks, values and monitors only. A reset that gets through the pipeline overwrites all three,
and one that does not has the same error on both. -/
namespace TemporalRewards

namespace Property

/-- A property at the start, from what no use of it changes and whether it is active. -/
def restored (blueprint : PropertySpec × Formula) (active : Bool) : Property :=
  ⟨blueprint.1.formula, .start blueprint.2, blueprint.1.reward, blueprint.1.mode, active, false⟩

end Property

namespace Checker

variable {c d : Checker}

/-- Which properties are active, in order, and how rewards are combined. -/
def settings (c : Checker) : List Bool × (Float → Float → Float) :=
  (c.properties.map (·.active), c.combine)

theorem rewind_eq_restored (c : Checker) :
    c.rewind = ⟨c.blueprints.zipWith Property.restored c.settings.1, c.settings.2⟩ := by
  simp only [blueprints, settings, List.zipWith_map, List.zipWith_self]
  rfl

theorem rewind_congr (declared : c.blueprints = d.blueprints)
    (settings : c.settings = d.settings) : c.rewind = d.rewind := by
  rw [rewind_eq_restored, rewind_eq_restored, declared, settings]

end Checker

namespace RewardScheme

variable {s t built : RewardScheme} {world : World}

theorem pipeline_check (s : RewardScheme) (world : World) :
    (s.check world).value.2.pipeline = s.pipeline := by
  rw [check, Logged.value_bind]
  rcases (s.success.check (Evaluator.read world s.pipeline)).value with ⟨_ | _, _⟩
  · rfl
  dsimp only
  rw [Logged.value_bind]
  rcases (s.termination.check (Evaluator.read world s.pipeline)).value with ⟨_ | _, _⟩
  · rfl
  dsimp only
  rw [Logged.value_bind]
  rcases (s.reward.check (Evaluator.read world s.pipeline)).value with ⟨_ | _, _⟩
  · rfl
  dsimp only
  split <;> rfl

/-- The pipeline goes its own way, whatever becomes of the checkers. -/
theorem pipeline_reset (s : RewardScheme) (world : World) :
    (s.reset world).value.2.pipeline = (s.pipeline.reset world).value.2 := by
  rw [value_reset]
  rcases (s.pipeline.reset world).value with ⟨_ | _, pipeline⟩
  · rfl
  · exact pipeline_check _ world

theorem pipeline_step (s : RewardScheme) (world : World) :
    (s.step world).value.2.pipeline = (s.pipeline.step world).value.2 := by
  rw [value_step]
  rcases (s.pipeline.step world).value with ⟨_ | _, pipeline⟩
  · rfl
  · exact pipeline_check _ world

theorem pipeline_withChecker (s : RewardScheme) (c : Checker) (channel : Channel) :
    (s.withChecker c channel).pipeline = s.pipeline := by
  cases channel <;> rfl

theorem Used.pipeline (used : Used built s) : built.pipeline.Reached s.pipeline := by
  induction used with
  | fresh => exact .built
  | reset world _ ih => exact pipeline_reset _ world ▸ ih.call .reset world
  | step world _ ih => exact pipeline_step _ world ▸ ih.call .step world
  | combine _ _ _ ih | rewind _ _ ih | check _ _ _ ih | property _ _ _ ih =>
    rw [pipeline_withChecker]
    exact ih

/-- Of two schemes with the same rules, declarations and settings, one is reset like the
other, and if the pipeline gets through, they are one scheme from then on. -/
theorem reset_congr (definitions : s.pipeline.definitions.table = t.pipeline.definitions.table)
    (propositions : s.pipeline.propositions.table = t.pipeline.propositions.table)
    (declared : ∀ channel, (s.checker channel).blueprints = (t.checker channel).blueprints)
    (settings : ∀ channel, (s.checker channel).settings = (t.checker channel).settings)
    (world : World) :
    (s.reset world).value.1 = (t.reset world).value.1 ∧
      ∀ signal, (s.reset world).value.1 = .ok signal →
        (s.reset world).value = (t.reset world).value := by
  have rewound : ∀ channel, (s.checker channel).rewind = (t.checker channel).rewind :=
    fun channel => Checker.rewind_congr (declared channel) (settings channel)
  have checkers : ∀ pipeline, (s.withPipeline pipeline).rewind = (t.withPipeline pipeline).rewind :=
    fun pipeline =>
      calc (s.withPipeline pipeline).rewind
          = ⟨pipeline, (s.checker .reward).rewind, (s.checker .termination).rewind,
              (s.checker .success).rewind⟩ := rfl
        _ = ⟨pipeline, (t.checker .reward).rewind, (t.checker .termination).rewind,
              (t.checker .success).rewind⟩ := by rw [rewound, rewound, rewound]
        _ = (t.withPipeline pipeline).rewind := rfl
  obtain ⟨answer, same⟩ := Pipeline.reset_congr definitions.symm propositions.symm world
  rw [value_reset, value_reset]
  rcases first : (s.pipeline.reset world).value with ⟨e | _, pipeline⟩
  · rcases second : (t.pipeline.reset world).value with ⟨e' | _, other⟩
    · rw [first, second] at answer
      obtain rfl := Except.error.inj answer
      exact ⟨rfl, nofun⟩
    · rw [first, second] at answer
      contradiction
  · rw [first] at same
    rw [same rfl]
    dsimp only
    rw [checkers]
    exact ⟨rfl, fun _ _ => rfl⟩

/-- The answers to steps, one in each world. -/
def answers (s : RewardScheme) : List World → List (Except RunError Signal)
  | [] => []
  | world :: rest => (s.step world).value.1 :: (s.step world).value.2.answers rest

end RewardScheme

/-- The rules of a pipeline and the properties declared over it. -/
structure Configuration where
  definitions : List (String × Rule Value)
  propositions : List (String × Rule Bool)
  rewards : List PropertySpec
  terminations : List PropertySpec
  successes : List PropertySpec

namespace Configuration

variable {k : Configuration} {s t : RewardScheme}

/-- A scheme of a configuration in any state that it can be in. Its pipeline may have been
called before the scheme was put over it, and no use has to be made of either: the scheme
that was just built is one. -/
inductive Instance (k : Configuration) : RewardScheme → Prop where
  | used {start : World} {first pipeline : Pipeline} {built s : RewardScheme} :
      (Pipeline.build k.definitions k.propositions start).value = .ok first →
      first.Reached pipeline →
      RewardScheme.compile pipeline k.rewards k.terminations k.successes = .ok built →
      RewardScheme.Used built s → Instance k s

theorem Instance.tables (inst : k.Instance s) :
    Table.build .definitions k.definitions = .ok s.pipeline.definitions.table ∧
      Table.build .propositions k.propositions = .ok s.pipeline.propositions.table := by
  cases inst with
  | used labelled reached compiled used =>
    obtain ⟨lower, upper⟩ := Pipeline.build_eq_ok_iff.mp labelled
    obtain ⟨rfl, _⟩ := RewardScheme.compile_ok compiled
    rw [used.pipeline.tables.1, used.pipeline.tables.2, reached.tables.1, reached.tables.2]
    exact ⟨(Definitions.build_eq_ok_iff.mp lower).1, (Propositions.build_eq_ok_iff.mp upper).1⟩

theorem Instance.declares (inst : k.Instance s) (channel : Channel) :
    Declares s.pipeline.alphabet (Channel.select k.rewards k.terminations k.successes channel)
      (s.checker channel).blueprints := by
  cases inst with
  | used _ _ compiled used =>
    obtain ⟨rfl, declares⟩ := RewardScheme.compile_ok compiled
    obtain ⟨names, same⟩ := used.alike
    rw [names, same]
    exact declares channel

/-- A reset does not depend on the past. If two schemes of one configuration, one of them
perhaps just built, have the same properties active, then a reset answers the same on both,
and if it succeeds, so does every step after it. -/
theorem reset_forgets (left : k.Instance s) (right : k.Instance t)
    (settings : ∀ channel, (s.checker channel).settings = (t.checker channel).settings)
    (world : World) :
    (s.reset world).value.1 = (t.reset world).value.1 ∧
      ∀ signal, (s.reset world).value.1 = .ok signal →
        (s.reset world).value.2 = (t.reset world).value.2 ∧
          ∀ worlds, (s.reset world).value.2.answers worlds =
            (t.reset world).value.2.answers worlds := by
  have definitions : s.pipeline.definitions.table = t.pipeline.definitions.table :=
    Except.ok.inj (left.tables.1.symm.trans right.tables.1)
  have propositions : s.pipeline.propositions.table = t.pipeline.propositions.table :=
    Except.ok.inj (left.tables.2.symm.trans right.tables.2)
  have names : s.pipeline.alphabet = t.pipeline.alphabet :=
    congrArg (fun table => Alphabet.mk table.names) propositions
  have declared : ∀ channel, (s.checker channel).blueprints = (t.checker channel).blueprints :=
    fun channel => (left.declares channel).unique (names ▸ right.declares channel)
  obtain ⟨answer, same⟩ :=
    RewardScheme.reset_congr definitions propositions declared settings world
  refine ⟨answer, ?_⟩
  intro signal succeeded
  rw [same signal succeeded]
  exact ⟨rfl, fun _ => rfl⟩

/-- The configuration of `wary`. -/
def cautious : Configuration :=
  { definitions := Pipeline.evenTick
    propositions := Pipeline.oddWhileFree
    rewards := [⟨"X odd", .constant 1, .satisfaction⟩]
    terminations := [⟨"G odd", .constant (-1), .violation⟩]
    successes := [] }

/-- One scheme has a property switched off after a tick and has then failed a reset past its
definitions, the other was just built and has the property switched off. -/
theorem reset_forgets_cautious : ∃ s t, cautious.Instance s ∧ cautious.Instance t ∧
    (s.tick = 2 ∧ s.pipeline.definitions.tick = 0 ∧
      s.termination.properties.map (·.monitor.lastTick) = [some 1]) ∧
    t.tick = 0 ∧ t.termination.properties.map (·.monitor.lastTick) = [none] ∧
    (∃ signal, (s.reset World.empty).value.1 = .ok signal) ∧
    (s.reset World.empty).value.1 = (t.reset World.empty).value.1 ∧
    ∀ worlds, (s.reset World.empty).value.2.answers worlds =
      (t.reset World.empty).value.2.answers worlds := by
  have labelled : (Pipeline.build Pipeline.evenTick Pipeline.oddWhileFree World.empty).value =
      .ok Pipeline.oddity := rfl
  have used : ∀ {s}, RewardScheme.Used .wary s → cautious.Instance s :=
    fun used => .used labelled .built RewardScheme.compile_wary used
  have off : RewardScheme.Used .wary _ := .property (.step World.empty .fresh) .deactivate (rfl :
    ((RewardScheme.step _ _).value.2.checker .termination).modify? "G odd"
      Property.deactivate = some _)
  have failed : RewardScheme.Used .wary _ := .reset Pipeline.claimed (.step World.empty off)
  have unused : RewardScheme.Used .wary _ := .property .fresh .deactivate (rfl :
    (RewardScheme.wary.checker .termination).modify? "G odd" Property.deactivate = some _)
  obtain ⟨answer, onward⟩ := reset_forgets (used failed) (used unused)
    (by rintro (_ | _ | _) <;> rfl) World.empty
  exact ⟨_, _, used failed, used unused, ⟨rfl, rfl, rfl⟩, rfl, rfl, ⟨_, rfl⟩, answer,
    (onward _ rfl).2⟩

end Configuration

end TemporalRewards
