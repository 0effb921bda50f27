import TemporalRewards.Proofs.Labelling.Calls
import TemporalRewards.Proofs.RewardScheme.Awards
import TemporalRewards.RewardScheme

/-! What stays fixed while a scheme is used: the names of the pipeline, and for every
property its declaration and the formula of its monitor, in the order of declaration.
Resets, steps, failed or not, and changes to single properties keep all of it. -/
namespace TemporalRewards

namespace Property

/-- The declaration of a property with the formula that its monitor was made for. -/
def blueprint (p : Property) : PropertySpec × Formula :=
  (⟨p.formula, p.reward, p.mode⟩, p.monitor.formula)

/-- What can be asked of a single property. -/
inductive Operation : (Property → Property) → Prop where
  | activate : Operation activate
  | deactivate : Operation deactivate
  | reset : Operation reset
  | check (tick o) : Operation fun p => (p.check tick o).value.2
  | evaluate (tick o) : Operation fun p => (p.evaluate tick o).value.2

theorem blueprint_check (p : Property) (tick : Tick) (o : Observation) :
    (p.check tick o).value.2.blueprint = p.blueprint := by
  have formula : (p.monitor.observe tick o).value.2.formula = p.monitor.formula := by
    unfold Monitor.observe
    cases p.monitor.stale? tick <;> rfl
  simp only [check, Logged.value_bind, Logged.value_pure, blueprint, formula]

theorem blueprint_evaluate (p : Property) (tick : Tick) (o : Observation) :
    (p.evaluate tick o).value.2.blueprint = p.blueprint := by
  have checked := blueprint_check p tick o
  unfold evaluate
  split
  · rw [Logged.value_bind]
    generalize (p.check tick o).value = answer at checked ⊢
    rcases answer with ⟨_ | verdict, after⟩
    · exact checked
    · exact checked
  · rfl

theorem Operation.blueprint {f : Property → Property} (operation : Operation f) (p : Property) :
    (f p).blueprint = p.blueprint := by
  cases operation with
  | activate | deactivate | reset => rfl
  | check tick o => exact blueprint_check p tick o
  | evaluate tick o => exact blueprint_evaluate p tick o

end Property

namespace Checker

variable {c after : Checker} {r : Reading}

def blueprints (c : Checker) : List (PropertySpec × Formula) := c.properties.map Property.blueprint

theorem blueprints_evaluateAll (r : Reading) (properties : List Property) :
    (evaluateAll r properties).value.2.map Property.blueprint =
      properties.map Property.blueprint := by
  induction properties with
  | nil => rfl
  | cons p rest ih =>
    have first := Property.blueprint_evaluate p r.tick r.observation
    rw [← Property.snd_award] at first
    rw [value_evaluateAll_cons]
    generalize p.award r = award at first ⊢
    rcases award with ⟨_ | _, next⟩
    · exact congrArg (· :: _) first
    · rw [List.map_cons, List.map_cons, ih]
      exact congrArg (· :: _) first

theorem blueprints_check (c : Checker) (r : Reading) :
    (c.check r).value.2.blueprints = c.blueprints := by
  rw [value_check]
  exact blueprints_evaluateAll r c.properties

theorem blueprints_rewind (c : Checker) : c.rewind.blueprints = c.blueprints := by
  simp only [blueprints, rewind, List.map_map]
  rfl

theorem blueprints_modify? {formula : String} {f : Property → Property}
    (operation : Property.Operation f) (modified : c.modify? formula f = some after) :
    after.blueprints = c.blueprints := by
  have each : ∀ properties changed, modifyFirst formula f properties = some changed →
      changed.map Property.blueprint = properties.map Property.blueprint := by
    intro properties
    induction properties with
    | nil =>
      intro changed found
      contradiction
    | cons p rest ih =>
      intro changed found
      rw [modifyFirst] at found
      split at found
      · obtain rfl := Option.some.inj found
        rw [List.map_cons, operation.blueprint, List.map_cons]
      · obtain ⟨later, inner, rfl⟩ := Option.map_eq_some_iff.mp found
        rw [List.map_cons, ih later inner, List.map_cons]
  obtain ⟨properties, found, rfl⟩ := Option.map_eq_some_iff.mp modified
  exact each c.properties properties found

end Checker

namespace Pipeline

theorem alphabet_call (p : Pipeline) (c : Call) (world : World) :
    (p.call c world).value.2.alphabet = p.alphabet := by
  obtain ⟨_, propositions⟩ := (call_outcome (Prod.eta (p.call c world).value).symm).tables
  rw [alphabet, Propositions.alphabet, propositions]
  rfl

end Pipeline

/-- One of three values, by channel. -/
def Channel.select {α : Type} (reward termination success : α) : Channel → α
  | .reward => reward
  | .termination => termination
  | .success => success

namespace RewardScheme

variable {s t built : RewardScheme} {c : Checker} {world : World}

/-- Two schemes over the same names with the same declared properties. -/
def Alike (s t : RewardScheme) : Prop :=
  s.pipeline.alphabet = t.pipeline.alphabet ∧
    ∀ channel, (s.checker channel).blueprints = (t.checker channel).blueprints

theorem Alike.trans {u : RewardScheme} (first : Alike s t) (second : Alike t u) : Alike s u :=
  ⟨first.1.trans second.1, fun channel => (first.2 channel).trans (second.2 channel)⟩

theorem alike_withPipeline (s : RewardScheme) {pipeline : Pipeline}
    (same : pipeline.alphabet = s.pipeline.alphabet) : Alike (s.withPipeline pipeline) s := by
  constructor
  · exact same
  · intro channel
    cases channel <;> rfl

theorem alike_withChecker (s : RewardScheme) (channel : Channel)
    (same : c.blueprints = (s.checker channel).blueprints) : Alike (s.withChecker c channel) s := by
  cases channel with
  | reward | termination | success =>
    constructor
    · rfl
    · intro other
      cases other <;> first | rfl | exact same

theorem alike_of_checkers {reward termination success : Checker}
    (sameReward : reward.blueprints = s.reward.blueprints)
    (sameTermination : termination.blueprints = s.termination.blueprints)
    (sameSuccess : success.blueprints = s.success.blueprints) :
    Alike ⟨s.pipeline, reward, termination, success⟩ s := by
  constructor
  · rfl
  · intro channel
    cases channel with
    | reward => exact sameReward
    | termination => exact sameTermination
    | success => exact sameSuccess

theorem alike_rewind (s : RewardScheme) : Alike s.rewind s :=
  alike_of_checkers (Checker.blueprints_rewind _) (Checker.blueprints_rewind _)
    (Checker.blueprints_rewind _)

theorem alike_check (s : RewardScheme) (world : World) : Alike (s.check world).value.2 s := by
  have success := Checker.blueprints_check s.success (Evaluator.read world s.pipeline)
  have termination := Checker.blueprints_check s.termination (Evaluator.read world s.pipeline)
  have reward := Checker.blueprints_check s.reward (Evaluator.read world s.pipeline)
  rw [check, Logged.value_bind]
  generalize (s.success.check (Evaluator.read world s.pipeline)).value = answer at success ⊢
  rcases answer with ⟨_ | _, _⟩
  · exact alike_of_checkers rfl rfl success
  dsimp only
  rw [Logged.value_bind]
  generalize (s.termination.check (Evaluator.read world s.pipeline)).value = answer
    at termination ⊢
  rcases answer with ⟨_ | _, _⟩
  · exact alike_of_checkers rfl termination success
  dsimp only
  rw [Logged.value_bind]
  generalize (s.reward.check (Evaluator.read world s.pipeline)).value = answer at reward ⊢
  rcases answer with ⟨_ | _, _⟩
  · exact alike_of_checkers reward termination success
  dsimp only
  split <;> exact alike_of_checkers reward termination success

theorem alike_reset (s : RewardScheme) (world : World) : Alike (s.reset world).value.2 s := by
  have names := Pipeline.alphabet_call s.pipeline .reset world
  rw [Pipeline.call] at names
  rw [reset, Logged.value_bind]
  generalize (s.pipeline.reset world).value = answer at names ⊢
  rcases answer with ⟨_ | _, pipeline⟩
  · exact alike_withPipeline s names
  · exact (alike_check _ world).trans ((alike_rewind _).trans (alike_withPipeline s names))

theorem alike_step (s : RewardScheme) (world : World) : Alike (s.step world).value.2 s := by
  have names := Pipeline.alphabet_call s.pipeline .step world
  rw [Pipeline.call] at names
  rw [step, Logged.value_bind]
  generalize (s.pipeline.step world).value = answer at names ⊢
  rcases answer with ⟨_ | _, pipeline⟩
  · exact alike_withPipeline s names
  · exact (alike_check _ world).trans (alike_withPipeline s names)

/-- What a scheme can have become since it was built: resets and steps, failed or not,
another way to combine rewards, and calls on a checker or on one property of it. -/
inductive Used (built : RewardScheme) : RewardScheme → Prop where
  | fresh : Used built built
  | reset {s : RewardScheme} (world : World) : Used built s → Used built (s.reset world).value.2
  | step {s : RewardScheme} (world : World) : Used built s → Used built (s.step world).value.2
  | combine {s : RewardScheme} (channel : Channel) (combine : Float → Float → Float) :
      Used built s → Used built (s.withChecker ((s.checker channel).withCombine combine) channel)
  | rewind {s : RewardScheme} (channel : Channel) : Used built s →
      Used built (s.withChecker (s.checker channel).rewind channel)
  | check {s : RewardScheme} (channel : Channel) (r : Reading) : Used built s →
      Used built (s.withChecker ((s.checker channel).check r).value.2 channel)
  | property {s : RewardScheme} {channel : Channel} {formula : String} {f : Property → Property}
      {c : Checker} : Used built s → Property.Operation f →
      (s.checker channel).modify? formula f = some c → Used built (s.withChecker c channel)

theorem Used.alike (used : Used built s) : Alike s built := by
  induction used with
  | fresh => exact ⟨rfl, fun _ => rfl⟩
  | reset world _ ih => exact (alike_reset _ world).trans ih
  | step world _ ih => exact (alike_step _ world).trans ih
  | @combine s channel combine _ ih =>
    have same : ((s.checker channel).withCombine combine).blueprints =
        (s.checker channel).blueprints := rfl
    exact (alike_withChecker s channel same).trans ih
  | rewind channel _ ih =>
    exact (alike_withChecker _ channel (Checker.blueprints_rewind _)).trans ih
  | check channel r _ ih =>
    exact (alike_withChecker _ channel (Checker.blueprints_check _ r)).trans ih
  | property _ operation modified ih =>
    exact (alike_withChecker _ _ (Checker.blueprints_modify? operation modified)).trans ih

end RewardScheme

/-- Blueprints as they are compiled from declarations. -/
structure Declares (alphabet : Alphabet) (specs : List PropertySpec)
    (blueprints : List (PropertySpec × Formula)) : Prop where
  declared : blueprints.map (·.1) = specs
  compiled : ∀ b ∈ blueprints, Monitor.compile b.1.formula alphabet = .ok (.start b.2)

/-- A declaration and the names decide what it is compiled to. -/
theorem Declares.unique {alphabet : Alphabet} {specs : List PropertySpec}
    {first second : List (PropertySpec × Formula)} (left : Declares alphabet specs first)
    (right : Declares alphabet specs second) : first = second := by
  induction first generalizing specs second with
  | nil =>
    have none := right.declared.trans left.declared.symm
    exact (List.map_eq_nil_iff.mp none).symm
  | cons b rest ih =>
    have same := right.declared.trans left.declared.symm
    obtain ⟨c, others, rfl, declared, later⟩ := List.map_eq_cons_iff.mp same
    obtain ⟨compiled, compiledRest⟩ := List.forall_mem_cons.mp left.compiled
    obtain ⟨compiled', compiledRest'⟩ := List.forall_mem_cons.mp right.compiled
    rw [declared, compiled] at compiled'
    have formula := congrArg Monitor.formula (Except.ok.inj compiled')
    rw [ih ⟨rfl, compiledRest⟩ ⟨later, compiledRest'⟩, Prod.ext declared.symm formula]

theorem Property.build_ok {spec : PropertySpec} {alphabet : Alphabet} {p : Property}
    (built : Property.build spec alphabet = .ok p) :
    p.blueprint.1 = spec ∧
      Monitor.compile spec.formula alphabet = .ok (.start p.monitor.formula) := by
  unfold Property.build at built
  split at built
  · contradiction
  · rename_i m compiled
    obtain rfl := Except.ok.inj built
    refine ⟨rfl, compiled.trans (congrArg Except.ok ?_)⟩
    unfold Monitor.compile at compiled
    cases parsed : parseFormula spec.formula alphabet with
    | error e =>
      rw [parsed] at compiled
      contradiction
    | ok φ =>
      rw [parsed] at compiled
      obtain rfl := Except.ok.inj compiled
      rfl

theorem Checker.buildProperties_ok {alphabet : Alphabet} {specs : List PropertySpec}
    {properties : List Property} (built : buildProperties alphabet specs = .ok properties) :
    Declares alphabet specs (properties.map Property.blueprint) := by
  induction specs generalizing properties with
  | nil =>
    obtain rfl := Except.ok.inj built
    refine ⟨rfl, ?_⟩
    intro b member
    contradiction
  | cons spec rest ih =>
    unfold buildProperties at built
    split at built
    · contradiction
    · rename_i p first
      cases others : buildProperties alphabet rest with
      | error e =>
        rw [others] at built
        contradiction
      | ok later =>
        rw [others] at built
        obtain rfl := Except.ok.inj built
        obtain ⟨declared, compiled⟩ := Property.build_ok first
        obtain ⟨declaredRest, compiledRest⟩ := ih others
        refine ⟨?_, List.forall_mem_cons.mpr ⟨?_, compiledRest⟩⟩
        · rw [List.map_cons, List.map_cons, declared, declaredRest]
        · rw [declared]
          exact compiled

theorem RewardScheme.compile_ok {pipeline : Pipeline}
    {rewards terminations successes : List PropertySpec} {built : RewardScheme}
    (compiled : compile pipeline rewards terminations successes = .ok built) :
    built.pipeline = pipeline ∧ ∀ channel,
      Declares pipeline.alphabet (Channel.select rewards terminations successes channel)
        (built.checker channel).blueprints := by
  have checker : ∀ {specs c}, Checker.build specs pipeline.alphabet = .ok c →
      Declares pipeline.alphabet specs c.blueprints := by
    intro specs c compiled
    unfold Checker.build at compiled
    cases each : Checker.buildProperties pipeline.alphabet specs with
    | error e =>
      rw [each] at compiled
      contradiction
    | ok properties =>
      rw [each] at compiled
      obtain rfl := Except.ok.inj compiled
      exact Checker.buildProperties_ok each
  unfold compile at compiled
  split at compiled
  · contradiction
  rename_i reward first
  split at compiled
  · contradiction
  rename_i termination second
  split at compiled
  · contradiction
  rename_i success third
  obtain rfl := Except.ok.inj compiled
  refine ⟨rfl, ?_⟩
  intro channel
  cases channel with
  | reward => exact checker first
  | termination => exact checker second
  | success => exact checker third

end TemporalRewards
