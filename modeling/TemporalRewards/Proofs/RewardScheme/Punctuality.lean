import TemporalRewards.Proofs.RewardScheme.Attendance

/-! Schemes that are driven by resets and steps, with properties switched on and off in
between. Whatever fails, no property gets ahead of the pipeline: a call that fails keeps its
tick, and the properties are set back before the pipeline shows an earlier one. So no monitor
refuses a tick, and every error of a scheme is that of a rule or of a reward. -/
namespace TemporalRewards

namespace Property

variable {p : Property} {tick : Tick}

/-- Switches a property on or off. -/
def switch (on : Bool) (p : Property) : Property := if on then p.activate else p.deactivate

theorem UpTo.switch (upTo : p.UpTo tick) (on : Bool) : (p.switch on).UpTo tick := by
  cases on <;> exact upTo

/-- A property that was just built is as a reset leaves it. -/
theorem reset_of_build {spec : PropertySpec} {alphabet : Alphabet}
    (built : Property.build spec alphabet = .ok p) : p.reset = p := by
  unfold Property.build at built
  split at built
  · contradiction
  · rename_i m compiled
    obtain rfl := Except.ok.inj built
    unfold Monitor.compile at compiled
    cases parsed : parseFormula spec.formula alphabet with
    | error e =>
      rw [parsed] at compiled
      contradiction
    | ok φ =>
      rw [parsed] at compiled
      obtain rfl := Except.ok.inj compiled
      rfl

end Property

theorem Answers.ne_stale {α : Type} {stopped : Bool} {result : Except RunError α}
    (answers : Answers stopped result) (e : StaleTick) : result ≠ .error (.stale e) := by
  rintro rfl
  cases stopped with
  | false | true => obtain ⟨_, ⟨⟩⟩ := answers

namespace Checker

variable {c after : Checker}

theorem reset_of_buildProperties {specs : List PropertySpec} {alphabet : Alphabet}
    {properties : List Property} (built : buildProperties alphabet specs = .ok properties) :
    properties.map Property.reset = properties := by
  induction specs generalizing properties with
  | nil =>
    obtain rfl := Except.ok.inj built
    rfl
  | cons spec rest ih =>
    unfold buildProperties at built
    split at built
    · contradiction
    · rename_i p first
      cases others : buildProperties alphabet rest with
      | error e =>
        rw [others] at built
        contradiction
      | ok later =>
        rw [others] at built
        obtain rfl := Except.ok.inj built
        rw [List.map_cons, Property.reset_of_build first, ih others]

theorem rewind_of_build {specs : List PropertySpec} {alphabet : Alphabet}
    (built : Checker.build specs alphabet = .ok c) : c.rewind = c := by
  unfold Checker.build at built
  cases compiled : buildProperties alphabet specs with
  | error e =>
    rw [compiled] at built
    contradiction
  | ok properties =>
    rw [compiled] at built
    obtain rfl := Except.ok.inj built
    rw [rewind, reset_of_buildProperties compiled]

theorem mem_modifyFirst {formula : String} {f : Property → Property}
    {properties changed : List Property}
    (modified : modifyFirst formula f properties = some changed) :
    ∀ p ∈ changed, p ∈ properties ∨ ∃ q ∈ properties, p = f q := by
  induction properties generalizing changed with
  | nil => contradiction
  | cons first rest ih =>
    rw [modifyFirst] at modified
    split at modified
    · obtain rfl := Option.some.inj modified
      refine List.forall_mem_cons.mpr ⟨.inr ⟨first, List.mem_cons_self, rfl⟩, ?_⟩
      intro p member
      exact .inl (List.mem_cons_of_mem first member)
    · obtain ⟨later, inner, rfl⟩ := Option.map_eq_some_iff.mp modified
      refine List.forall_mem_cons.mpr ⟨.inl List.mem_cons_self, ?_⟩
      intro p member
      rcases ih inner p member with kept | ⟨q, old, rfl⟩
      · exact .inl (List.mem_cons_of_mem first kept)
      · exact .inr ⟨q, List.mem_cons_of_mem first old, rfl⟩

/-- Every property of a changed checker was there before, or is the change of one that was. -/
theorem mem_modify? {formula : String} {f : Property → Property}
    (modified : c.modify? formula f = some after) :
    ∀ p ∈ after.properties, p ∈ c.properties ∨ ∃ q ∈ c.properties, p = f q := by
  obtain ⟨properties, found, rfl⟩ := Option.map_eq_some_iff.mp modified
  exact mem_modifyFirst found

end Checker

namespace RewardScheme

variable {s built : RewardScheme} {c : Checker} {pipeline : Pipeline} {world : World}
  {rewards terminations successes : List PropertySpec}

theorem rewind_of_compile
    (compiled : compile pipeline rewards terminations successes = .ok built) :
    built.rewind = built := by
  unfold compile at compiled
  split at compiled
  · contradiction
  rename_i reward first
  split at compiled
  · contradiction
  rename_i termination second
  split at compiled
  · contradiction
  rename_i success third
  obtain rfl := Except.ok.inj compiled
  rw [rewind, Checker.rewind_of_build first, Checker.rewind_of_build second,
    Checker.rewind_of_build third]

/-- What a scheme can have become by resets and steps, failed or not, each in a world of its
own, and by properties that were switched on and off. -/
inductive Driven (built : RewardScheme) : RewardScheme → Prop where
  | built : Driven built built
  | reset {s : RewardScheme} (world : World) : Driven built s →
      Driven built (s.reset world).value.2
  | step {s : RewardScheme} (world : World) : Driven built s →
      Driven built (s.step world).value.2
  | switch {s : RewardScheme} {channel : Channel} {formula : String} {on : Bool} {c : Checker} :
      Driven built s → (s.checker channel).modify? formula (Property.switch on) = some c →
      Driven built (s.withChecker c channel)

theorem checker_withChecker (s : RewardScheme) (c : Checker) (channel other : Channel) :
    (s.withChecker c channel).checker other = if other = channel then c else s.checker other := by
  cases channel <;> cases other <;> rfl

theorem tick_withChecker (s : RewardScheme) (c : Checker) (channel : Channel) :
    (s.withChecker c channel).tick = s.tick := by
  cases channel <;> rfl

theorem value_reset (s : RewardScheme) (world : World) : (s.reset world).value =
    match (s.pipeline.reset world).value with
    | (.error e, pipeline) => (.error (.evaluation e), s.withPipeline pipeline)
    | (.ok (), pipeline) => ((s.withPipeline pipeline).rewind.check world).value := by
  rw [reset, Logged.value_bind]
  rcases (s.pipeline.reset world).value with ⟨_ | _, pipeline⟩ <;> rfl

theorem Punctual.reset (punctual : s.Punctual) (world : World) :
    (s.reset world).value.2.Punctual := by
  rw [value_reset]
  rcases answer : (s.pipeline.reset world).value with ⟨_ | _, pipeline⟩
  · exact punctual.withPipeline (c := .reset) answer
  · exact (punctual_rewind _).check world

theorem Punctual.switch {channel : Channel} {formula : String} {on : Bool} (punctual : s.Punctual)
    (modified : (s.checker channel).modify? formula (Property.switch on) = some c) :
    (s.withChecker c channel).Punctual := by
  have each := forall_mem_inOrder.mp punctual
  rw [Punctual, tick_withChecker]
  refine forall_mem_inOrder.mpr ?_
  intro other p member
  rw [checker_withChecker] at member
  split at member
  · rcases Checker.mem_modify? modified p member with kept | ⟨q, old, rfl⟩
    · exact each channel p kept
    · exact (each channel q old).switch on
  · exact each other p member

theorem Driven.punctual (compiled : compile pipeline rewards terminations successes = .ok built)
    (driven : Driven built s) : s.Punctual := by
  induction driven with
  | built => exact rewind_of_compile compiled ▸ punctual_rewind built
  | reset world _ ih => exact ih.reset world
  | step world _ ih => exact ih.step world
  | switch _ modified ih => exact ih.switch modified

theorem Punctual.check_ne_stale (punctual : s.Punctual) (world : World) (e : StaleTick) :
    (s.check world).value.1 ≠ .error (.stale e) := by
  obtain ⟨_, _, checked, _, _, answers⟩ := check_pass punctual world
  rw [checked]
  exact answers.ne_stale e

/-- However a scheme was driven, no property of it has seen a tick past that of the pipeline,
and no reset and no step is refused by a monitor as stale. -/
theorem never_stale (compiled : compile pipeline rewards terminations successes = .ok built)
    (driven : Driven built s) :
    (∀ channel, ∀ p ∈ (s.checker channel).properties, ∀ last,
        p.monitor.lastTick = some last → last ≤ s.tick) ∧
      ∀ world e, (s.reset world).value.1 ≠ .error (.stale e) ∧
        (s.step world).value.1 ≠ .error (.stale e) := by
  have punctual := driven.punctual compiled
  refine ⟨forall_mem_inOrder.mp punctual, ?_⟩
  intro world e
  constructor
  · rw [value_reset]
    rcases (s.pipeline.reset world).value with ⟨_ | _, pipeline⟩
    · simp
    · exact (punctual_rewind _).check_ne_stale world e
  · rw [value_step]
    rcases advanced : (s.pipeline.step world).value with ⟨_ | _, pipeline⟩
    · simp
    · have moved : (s.withPipeline pipeline).Punctual :=
        fun p member => (punctual.lastTick_ne advanced p member).1
      exact moved.check_ne_stale world e

/-- Over `oddity`, whose proposition fails while the priority is taken. -/
def wary : RewardScheme :=
  { pipeline := Pipeline.oddity
    reward := ⟨[⟨"X odd", .start (.next (.atom 0)), .constant 1, .satisfaction, true, false⟩],
      fun left right => left + right⟩
    termination :=
      ⟨[⟨"G odd", .start (.always (.atom 0)), .constant (-1), .violation, true, false⟩],
        fun left right => left + right⟩
    success := ⟨[], fun left right => left + right⟩ }

theorem compile_wary : compile Pipeline.oddity [⟨"X odd", .constant 1, .satisfaction⟩]
    [⟨"G odd", .constant (-1), .violation⟩] [] = .ok wary := by
  have next : parseFormula "X odd" Pipeline.oddity.alphabet = .ok (.next (.atom 0)) := by
    decide +kernel
  have always : parseFormula "G odd" Pipeline.oddity.alphabet = .ok (.always (.atom 0)) := by
    decide +kernel
  simp only [compile, Checker.build, Checker.buildProperties, Property.build, Monitor.compile,
    next, always]
  rfl

/-- At tick two a reset fails past the definitions, and two steps pass until they are at the
tick of the propositions again. The third step reaches a property that last saw tick one, as
it was off at tick two. -/
theorem never_stale_wary : ∃ s, Driven wary s ∧ s.tick = 2 ∧ s.pipeline.definitions.tick = 2 ∧
    s.termination.properties.map (·.monitor.lastTick) = [some 1] ∧
    (∃ signal after, (s.step World.empty).value = (.ok signal, after) ∧ signal.tick = 3) ∧
    ∀ e, (s.step World.empty).value.1 ≠ .error (.stale e) := by
  have first : Driven wary _ := .step World.empty .built
  have off : Driven wary _ := .switch first (rfl :
    ((RewardScheme.step _ _).value.2.checker .termination).modify? "G odd"
      (Property.switch false) = some _)
  have second : Driven wary _ := .step World.empty off
  have on : Driven wary _ := .switch second (rfl :
    ((RewardScheme.step _ _).value.2.checker .termination).modify? "G odd"
      (Property.switch true) = some _)
  have level : Driven wary _ :=
    .step World.empty (.step World.empty (.reset Pipeline.claimed on))
  refine ⟨_, level, rfl, rfl, rfl, ⟨_, _, rfl, rfl⟩, ?_⟩
  intro e
  exact ((never_stale compile_wary level).2 World.empty e).2

end RewardScheme

end TemporalRewards
