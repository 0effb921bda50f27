import TemporalRewards.Proofs.Labelling.Calls
import TemporalRewards.Proofs.RewardScheme.Runs

/-! Which properties see a tick. The properties of the three checkers are evaluated in one
order, and a reward that fails ends the pass: the properties after it miss the tick. No
property is ever ahead of the pipeline, so a pass ends for no other reason. -/
namespace TemporalRewards

namespace Property

variable {p : Property} {r : Reading} {tick later : Tick}

/-- The monitor has seen nothing past a tick. -/
def UpTo (p : Property) (tick : Tick) : Prop := ∀ last, p.monitor.lastTick = some last → last ≤ tick

theorem UpTo.mono (upTo : p.UpTo tick) (ordered : tick ≤ later) : p.UpTo later :=
  fun last known => Nat.le_trans (upTo last known) ordered

theorem upTo_reset (p : Property) (tick : Tick) : p.reset.UpTo tick := by
  intro last known
  contradiction

theorem upTo_see (upTo : p.UpTo r.tick) : (p.see r).UpTo r.tick := by
  unfold see
  split
  · rintro last ⟨⟩
    exact Nat.le_refl _
  · exact upTo

/-- An active property that sees a reading is at its tick. -/
theorem lastTick_see (active : (p.see r).active = true) :
    (p.see r).monitor.lastTick = some r.tick := by
  unfold see at active ⊢
  split at active
  · rename_i active'
    rw [if_pos active']
    rfl
  · contradiction

theorem evaluate_upTo (upTo : p.UpTo r.tick) :
    (p.evaluate r.tick r.observation).value = (.ok (p.see r).fired, p.see r) := by
  unfold evaluate see
  split
  · have fresh := Monitor.stale?_eq_none_iff.mpr upTo
    have observed := Monitor.observe_ok_iff (o := r.observation).mpr ⟨fresh, rfl, rfl⟩
    rw [Logged.value_bind, check, Logged.value_bind, observed]
    rfl
  · rfl

theorem reward_see (p : Property) (r : Reading) : (p.see r).reward = p.reward := by
  unfold see
  split <;> rfl

/-- The property fires at a reading, and its reward fails. -/
def stops (p : Property) (r : Reading) : Bool :=
  (p.see r).fired && !(p.reward.evaluate r.scope r.tick).isOk

end Property

/-- The answer of a pass, which is the error of a reward if there was a stop. -/
def Answers {α : Type} (stopped : Bool) (result : Except RunError α) : Prop :=
  if stopped then ∃ cause, result = .error (.evaluation cause) else ∃ a, result = .ok a

theorem Answers.map {α β : Type} {stopped : Bool} {result : Except RunError α}
    (answers : Answers stopped result) (f : α → β) : Answers stopped (result.map f) := by
  cases stopped with
  | false =>
    obtain ⟨a, rfl⟩ := answers
    exact ⟨f a, rfl⟩
  | true =>
    obtain ⟨cause, rfl⟩ := answers
    exact ⟨cause, rfl⟩

namespace Checker

variable {r : Reading} {properties : List Property}

/-- The properties after a pass, which goes on up to the first stop. -/
def pass (r : Reading) : List Property → List Property
  | [] => []
  | p :: rest => p.see r :: if p.stops r then rest else pass r rest

theorem pass_append (r : Reading) (front back : List Property) :
    pass r (front ++ back) =
      pass r front ++ if front.any (·.stops r) then back else pass r back := by
  induction front with
  | nil => rfl
  | cons p rest ih =>
    rw [List.cons_append, pass, pass, List.any_cons, ih]
    cases p.stops r <;> rfl

theorem upTo_pass (upTo : ∀ p ∈ properties, p.UpTo r.tick) :
    ∀ p ∈ pass r properties, p.UpTo r.tick := by
  induction properties with
  | nil => exact upTo
  | cons p rest ih =>
    obtain ⟨first, others⟩ := List.forall_mem_cons.mp upTo
    refine List.forall_mem_cons.mpr ⟨Property.upTo_see first, ?_⟩
    split
    · exact others
    · exact ih others

/-- Every active property is at the tick of a pass just when none of them stands after a
stop. -/
theorem attended_pass_iff (old : ∀ p ∈ properties, p.monitor.lastTick ≠ some r.tick) :
    (∀ p ∈ pass r properties, p.active = true → p.monitor.lastTick = some r.tick) ↔
      properties.Pairwise fun p q => p.stops r = true → q.active = false := by
  induction properties with
  | nil => simp [pass]
  | cons p rest ih =>
    obtain ⟨_, others⟩ := List.forall_mem_cons.mp old
    rw [pass, List.forall_mem_cons, List.pairwise_cons, and_iff_right Property.lastTick_see]
    cases p.stops r with
    | false => simpa using ih others
    | true =>
      -- The rest is left as it was, and nothing in it was at this tick before.
      constructor
      · intro seen
        have inactive : ∀ q ∈ rest, q.active = false := by
          intro q member
          by_contra active
          exact others q member (seen q member (eq_true_of_ne_false active))
        exact ⟨fun q member _ => inactive q member,
          List.pairwise_of_forall_mem_list fun _ _ q member _ => inactive q member⟩
      · rintro ⟨inactive, _⟩ q member active
        rw [inactive q member rfl] at active
        contradiction

theorem award_upTo {p : Property} (upTo : p.UpTo r.tick) : ∃ result,
    p.award r = (result, p.see r) ∧ Answers (p.stops r) result := by
  have evaluated := Property.evaluate_upTo upTo
  rw [Property.stops]
  cases fires : (p.see r).fired with
  | false =>
    rw [fires] at evaluated
    exact ⟨.ok none, Property.award_of_silent evaluated, none, rfl⟩
  | true =>
    rw [fires] at evaluated
    rw [Property.award_of_fired evaluated, Property.reward_see]
    cases p.reward.evaluate r.scope r.tick with
    | error cause => exact ⟨_, rfl, cause, rfl⟩
    | ok reward => exact ⟨_, rfl, _, rfl⟩

theorem evaluateAll_pass (upTo : ∀ p ∈ properties, p.UpTo r.tick) : ∃ result,
    (evaluateAll r properties).value = (result, pass r properties) ∧
      Answers (properties.any (·.stops r)) result := by
  induction properties with
  | nil => exact ⟨.ok [], rfl, [], rfl⟩
  | cons p rest ih =>
    obtain ⟨first, others⟩ := List.forall_mem_cons.mp upTo
    obtain ⟨award, awarded, answer⟩ := award_upTo first
    obtain ⟨result, evaluated, answers⟩ := ih others
    rw [value_evaluateAll_cons, awarded, evaluated, pass, List.any_cons]
    cases stops : p.stops r with
    | true =>
      rw [stops] at answer
      obtain ⟨cause, rfl⟩ := answer
      exact ⟨_, rfl, cause, rfl⟩
    | false =>
      rw [stops] at answer
      obtain ⟨firing, rfl⟩ := answer
      exact ⟨_, rfl, answers.map _⟩

theorem check_pass {c : Checker} (upTo : ∀ p ∈ c.properties, p.UpTo r.tick) : ∃ result,
    (c.check r).value = (result, { c with properties := pass r c.properties }) ∧
      Answers (c.properties.any (·.stops r)) result := by
  obtain ⟨result, evaluated, answers⟩ := evaluateAll_pass upTo
  rw [value_check, evaluated]
  exact ⟨_, rfl, answers.map (c.signalOf r.tick)⟩

end Checker

namespace RewardScheme

variable {s before after : RewardScheme} {pipeline : Pipeline} {world : World}

/-- The properties in the order of their evaluation. -/
def inOrder (s : RewardScheme) : List Property :=
  s.success.properties ++ (s.termination.properties ++ s.reward.properties)

theorem forall_mem_inOrder {P : Property → Prop} : (∀ p ∈ s.inOrder, P p) ↔
    ∀ channel, ∀ p ∈ (s.checker channel).properties, P p := by
  rw [inOrder, List.forall_mem_append, List.forall_mem_append]
  constructor
  · rintro ⟨success, termination, reward⟩ channel
    cases channel with
    | reward => exact reward
    | termination => exact termination
    | success => exact success
  · intro each
    exact ⟨each .success, each .termination, each .reward⟩

/-- No property is ahead of the pipeline. -/
def Punctual (s : RewardScheme) : Prop := ∀ p ∈ s.inOrder, p.UpTo s.tick

/-- A check is one pass over the properties of the three checkers. -/
theorem check_pass (punctual : s.Punctual) (world : World) : ∃ result after,
    (s.check world).value = (result, after) ∧ after.pipeline = s.pipeline ∧
      after.inOrder = Checker.pass (Evaluator.read world s.pipeline) s.inOrder ∧
      Answers (s.inOrder.any (·.stops (Evaluator.read world s.pipeline))) result := by
  have each := forall_mem_inOrder.mp punctual
  obtain ⟨first, success, answers₁⟩ :=
    Checker.check_pass (r := Evaluator.read world s.pipeline) (each .success)
  obtain ⟨second, termination, answers₂⟩ :=
    Checker.check_pass (r := Evaluator.read world s.pipeline) (each .termination)
  obtain ⟨third, reward, answers₃⟩ :=
    Checker.check_pass (r := Evaluator.read world s.pipeline) (each .reward)
  simp only [checker] at success termination reward answers₁ answers₂ answers₃
  simp only [check, Logged.value_bind, success, inOrder, Checker.pass_append, List.any_append]
  -- A checker that stops answers for the scheme, and the checkers after it do not run.
  generalize s.success.properties.any _ = stopped₁ at answers₁ ⊢
  generalize s.termination.properties.any _ = stopped₂ at answers₂ ⊢
  generalize s.reward.properties.any _ = stopped₃ at answers₃ ⊢
  cases stopped₁ with
  | true =>
    obtain ⟨cause, rfl⟩ := answers₁
    exact ⟨_, _, rfl, rfl, rfl, cause, rfl⟩
  | false =>
    obtain ⟨succeeded, rfl⟩ := answers₁
    simp only [Logged.value_bind, termination]
    cases stopped₂ with
    | true =>
      obtain ⟨cause, rfl⟩ := answers₂
      exact ⟨_, _, rfl, rfl, rfl, cause, rfl⟩
    | false =>
      obtain ⟨terminated, rfl⟩ := answers₂
      simp only [Logged.value_bind, reward]
      cases stopped₃ with
      | true =>
        obtain ⟨cause, rfl⟩ := answers₃
        exact ⟨_, _, rfl, rfl, rfl, cause, rfl⟩
      | false =>
        obtain ⟨rewarded, rfl⟩ := answers₃
        -- The note on a decided channel changes neither the answer nor the scheme.
        dsimp only
        split <;> exact ⟨_, _, rfl, rfl, rfl, _, rfl⟩

theorem Punctual.check (punctual : s.Punctual) (world : World) :
    (s.check world).value.2.Punctual := by
  obtain ⟨_, after, checked, same, order, _⟩ := check_pass punctual world
  rw [checked, Punctual, order, tick, same]
  exact Checker.upTo_pass punctual

theorem punctual_rewind (s : RewardScheme) : s.rewind.Punctual := by
  refine forall_mem_inOrder (P := fun p => p.UpTo s.rewind.tick).mpr ?_
  intro channel p member
  have each : (s.rewind.checker channel).properties =
      (s.checker channel).properties.map Property.reset := by
    cases channel <;> rfl
  rw [each] at member
  obtain ⟨q, _, rfl⟩ := List.mem_map.mp member
  exact Property.upTo_reset q _

/-- A pipeline that advanced is past all properties. -/
theorem Punctual.lastTick_ne (punctual : s.Punctual)
    (advanced : (s.pipeline.step world).value = (.ok (), pipeline)) :
    ∀ p ∈ s.inOrder, p.UpTo pipeline.tick ∧ p.monitor.lastTick ≠ some pipeline.tick := by
  intro p member
  rw [Pipeline.step_tick advanced]
  constructor
  · exact (punctual p member).mono (Nat.le_succ _)
  · intro seen
    exact Nat.not_succ_le_self _ (punctual p member _ seen)

theorem value_step (s : RewardScheme) (world : World) : (s.step world).value =
    match (s.pipeline.step world).value with
    | (.error e, pipeline) => (.error (.evaluation e), s.withPipeline pipeline)
    | (.ok (), pipeline) => ((s.withPipeline pipeline).check world).value := by
  rw [step, Logged.value_bind]
  rcases (s.pipeline.step world).value with ⟨_ | _, pipeline⟩ <;> rfl

/-- A call that fails keeps the tick of the pipeline. -/
theorem Punctual.withPipeline {c : Pipeline.Call} {e : EvalError} (punctual : s.Punctual)
    (failed : (s.pipeline.call c world).value = (.error e, pipeline)) :
    (s.withPipeline pipeline).Punctual := by
  have kept := (Pipeline.call_outcome failed).propositions_error
  have same : (s.withPipeline pipeline).tick = s.tick := congrArg Propositions.tick kept
  intro p member
  rw [same]
  exact punctual p member

theorem Punctual.step (punctual : s.Punctual) (world : World) :
    (s.step world).value.2.Punctual := by
  rw [value_step]
  rcases advanced : (s.pipeline.step world).value with ⟨_ | _, pipeline⟩
  · exact punctual.withPipeline (c := .step) advanced
  · have moved : (s.withPipeline pipeline).Punctual :=
      fun p member => (punctual.lastTick_ne advanced p member).1
    exact moved.check world

/-- A reset that succeeds and then steps, failed or not. -/
inductive Attempts (s : RewardScheme) : RewardScheme → Prop where
  | reset {world : World} {signal : Signal} {after : RewardScheme} :
      (s.reset world).value = (.ok signal, after) → Attempts s after
  | step {before : RewardScheme} (world : World) :
      Attempts s before → Attempts s (before.step world).value.2

theorem Attempts.punctual (attempts : Attempts s after) : after.Punctual := by
  induction attempts with
  | @reset world _ _ succeeded =>
    obtain ⟨pipeline, _, checked⟩ := reset_ok succeeded
    have punctual := (punctual_rewind (s.withPipeline pipeline)).check world
    rwa [checked] at punctual
  | step world _ ih => exact ih.step world

/-- Every active property of every checker has seen the tick of the pipeline. -/
def Attended (s : RewardScheme) : Prop :=
  ∀ channel, ∀ p ∈ (s.checker channel).properties,
    p.active = true → p.monitor.lastTick = some s.pipeline.tick

/-- When the pipeline advances, the step fails just if a property fires whose reward fails,
and it leaves a tick out just if an active property stands after such a one. -/
theorem attended_iff (attempts : Attempts s before)
    (advanced : (before.pipeline.step world).value = (.ok (), pipeline)) :
    (before.step world).value.2.pipeline = pipeline ∧ pipeline.tick = before.tick + 1 ∧
      Answers (before.inOrder.any (·.stops (Evaluator.read world pipeline)))
        (before.step world).value.1 ∧
      ((before.step world).value.2.Attended ↔ before.inOrder.Pairwise fun p q =>
        p.stops (Evaluator.read world pipeline) = true → q.active = false) := by
  have behind := attempts.punctual.lastTick_ne advanced
  have moved : (before.withPipeline pipeline).Punctual := fun p member => (behind p member).1
  obtain ⟨result, after, checked, same, order, answers⟩ := check_pass moved world
  rw [value_step, advanced]
  dsimp only
  rw [checked, Attended, ← forall_mem_inOrder (s := after), same, order]
  refine ⟨rfl, Pipeline.step_tick advanced, answers, ?_⟩
  exact Checker.attended_pass_iff fun p member => (behind p member).2

/-- A reward that fails at tick one. -/
def brittleReward : Reward :=
  .computed fun _ tick => if tick = 1 then .error (.custom "broken") else .ok 1

def brittle : RewardScheme :=
  { pipeline := Pipeline.oddity
    reward := ⟨[⟨"true", .start .top, brittleReward, .satisfaction, true, false⟩,
      ⟨"F odd", .start (.eventually (.atom 0)), .constant (-1), .violation, true, false⟩],
      fun left right => left + right⟩
    termination := ⟨[], fun left right => left + right⟩
    success := ⟨[], fun left right => left + right⟩ }

/-- Past the reset. -/
def started : RewardScheme := (brittle.reset World.empty).value.2

/-- Past the step whose reward fails. -/
def broken : RewardScheme := (started.step World.empty).value.2

theorem attempts_started : Attempts brittle started :=
  .reset (rfl : (brittle.reset World.empty).value = _)

/-- The second property is still at tick zero. -/
theorem missed_broken : ¬ broken.Attended := by
  intro attended
  have seen := attended .reward _ (List.mem_cons_of_mem _ List.mem_cons_self) rfl
  contradiction

/-- At tick two no reward fails, and the property that missed tick one sees it. -/
theorem attended_iff_broken : broken.tick = 1 ∧ ¬ broken.Attended ∧
    (broken.step World.empty).value.2.tick = 2 ∧ (broken.step World.empty).value.2.Attended := by
  have attempts : Attempts brittle broken := attempts_started.step World.empty
  obtain ⟨_, _, _, attended⟩ := attended_iff attempts
    (rfl : (broken.pipeline.step World.empty).value = _)
  refine ⟨rfl, missed_broken, rfl, attended.mpr ?_⟩
  refine .cons ?_ (.cons nofun .nil)
  intro q member stop
  contradiction

/-- Not every property of every scheme sees every tick. -/
theorem not_attended_brittle :
    ¬ ∀ {definitions propositions} {start world : World} {first pipeline : Pipeline}
        {rewards terminations successes : List PropertySpec} {s before : RewardScheme},
      (Pipeline.build definitions propositions start).value = .ok first →
      compile first rewards terminations successes = .ok s → Attempts s before →
      (before.pipeline.step world).value = (.ok (), pipeline) →
      (before.step world).value.2.Attended := by
  intro always
  have built : (Pipeline.build Pipeline.evenTick Pipeline.oddWhileFree World.empty).value =
      .ok Pipeline.oddity := rfl
  have compiled : compile Pipeline.oddity [⟨"true", brittleReward, .satisfaction⟩,
      ⟨"F odd", .constant (-1), .violation⟩] [] [] = .ok brittle := by
    have constant : parseFormula "true" Pipeline.oddity.alphabet = .ok .top := by decide +kernel
    have temporal : parseFormula "F odd" Pipeline.oddity.alphabet = .ok (.eventually (.atom 0)) := by
      decide +kernel
    simp only [compile, Checker.build, Checker.buildProperties, Property.build, Monitor.compile,
      constant, temporal]
    rfl
  exact missed_broken (always built compiled attempts_started
    (rfl : (started.pipeline.step World.empty).value = _))

end RewardScheme

end TemporalRewards
