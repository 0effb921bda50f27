import TemporalRewards.Checker
import TemporalRewards.Labelling.Clock
import TemporalRewards.Proofs.Labelling.Calls

/-! Evaluators that nobody can tell apart. A bisimulation relates evaluators that show the
same and answer every call alike; then all that is driven by one of them goes as if it were
driven by the other. The labelling by a clock and the pipeline whose propositions look at the
tick alone are related from their construction on. -/
namespace TemporalRewards

/-- A world without objects. -/
def World.Bare (world : World) : Prop := world.objects = SortedMap.empty

namespace Evaluator

variable {ε δ : Type} [Evaluator ε] [Evaluator δ]

def call (e : ε) : Pipeline.Call → World → Logged (Except EvalError Unit × ε)
  | .reset, world => reset world e
  | .step, world => step world e

/-- The answers to calls, each in a world of its own, and the evaluator after them. -/
def run (e : ε) : List (Pipeline.Call × World) → List (Except EvalError Unit) × ε
  | [] => ([], e)
  | (c, world) :: rest =>
    let (result, next) := (call e c world).value
    let (results, last) := run next rest
    (result :: results, last)

/-- In suitable worlds, related evaluators show the same, answer a call alike and are related
after it. -/
structure Bisimulation (Suits : World → Prop) (R : ε → δ → Prop) : Prop where
  alphabet {e : ε} {d : δ} : R e d → alphabet e = alphabet d
  read {e : ε} {d : δ} {world : World} : R e d → Suits world → read world e = read world d
  call {e : ε} {d : δ} {world : World} (c : Pipeline.Call) : R e d → Suits world →
    (call e c world).value.1 = (call d c world).value.1 ∧
      R (call e c world).value.2 (call d c world).value.2

namespace Bisimulation

variable {Suits : World → Prop} {R : ε → δ → Prop} {e : ε} {d : δ}

theorem run (bisimulation : Bisimulation Suits R) (related : R e d)
    {calls : List (Pipeline.Call × World)} (suits : ∀ c ∈ calls, Suits c.2) :
    (Evaluator.run e calls).1 = (Evaluator.run d calls).1 ∧
      R (Evaluator.run e calls).2 (Evaluator.run d calls).2 := by
  induction calls generalizing e d with
  | nil => exact ⟨rfl, related⟩
  | cons c rest ih =>
    obtain ⟨now, later⟩ := List.forall_mem_cons.mp suits
    obtain ⟨same, next⟩ := bisimulation.call c.1 related now
    obtain ⟨others, last⟩ := ih next later
    simp only [Evaluator.run]
    rw [same, others]
    exact ⟨rfl, last⟩

end Bisimulation

end Evaluator

namespace Checker

variable {ε δ : Type} [Evaluator ε] [Evaluator δ]

/-- What a checker is asked for. -/
inductive Request
  | call (c : Pipeline.Call)
  | check

/-- Serves a request from an evaluator, which a check reads only. -/
def serve (c : Checker) (e : ε) : Request → World → Logged (Except RunError Signal × Checker × ε)
  | .call .reset, world => c.reset world e
  | .call .step, world => c.step world e
  | .check, world => do
    let (result, c) ← c.check (Evaluator.read world e)
    pure (result, c, e)

/-- The answers to requests, each in a world of its own. -/
def session (c : Checker) (e : ε) : List (Request × World) → List (Except RunError Signal)
  | [] => []
  | (request, world) :: rest =>
    let (result, next, after) := (c.serve e request world).value
    result :: next.session after rest

/-- The checker that checks after a call. -/
def beforeCheck (c : Checker) : Pipeline.Call → Checker
  | .reset => c.rewind
  | .step => c

theorem value_serve_check (c : Checker) (e : ε) (world : World) :
    (c.serve e .check world).value =
      let (result, c) := (c.check (Evaluator.read world e)).value
      (result, c, e) := rfl

theorem value_serve_call (c : Checker) (e : ε) (k : Pipeline.Call) (world : World) :
    (c.serve e (.call k) world).value =
      match (Evaluator.call e k world).value with
      | (.error cause, e) => (.error (.evaluation cause), c, e)
      | (.ok (), e) =>
        let (result, c) := ((c.beforeCheck k).check (Evaluator.read world e)).value
        (result, c, e) := by
  cases k with
  | reset =>
    rw [serve, reset, Logged.value_bind, Evaluator.call]
    rcases (Evaluator.reset world e).value with ⟨_ | _, e⟩ <;> rfl
  | step =>
    rw [serve, step, Logged.value_bind, Evaluator.call]
    rcases (Evaluator.step world e).value with ⟨_ | _, e⟩ <;> rfl

end Checker

namespace Evaluator.Bisimulation

variable {ε δ : Type} [Evaluator ε] [Evaluator δ] {Suits : World → Prop} {R : ε → δ → Prop}
  {e : ε} {d : δ} {world : World}

/-- A checker gives one answer and becomes one checker over related evaluators. -/
theorem serve (bisimulation : Bisimulation Suits R) (related : R e d) (suits : Suits world)
    (c : Checker) (request : Checker.Request) : ∃ result next after after',
    (c.serve e request world).value = (result, next, after) ∧
      (c.serve d request world).value = (result, next, after') ∧ R after after' := by
  cases request with
  | check =>
    rw [Checker.value_serve_check, Checker.value_serve_check, bisimulation.read related suits]
    exact ⟨_, _, e, d, rfl, rfl, related⟩
  | call k =>
    obtain ⟨same, next⟩ := bisimulation.call k related suits
    rw [Checker.value_serve_call, Checker.value_serve_call]
    generalize (Evaluator.call e k world).value = left at same next
    generalize (Evaluator.call d k world).value = right at same next
    obtain ⟨result, after⟩ := left
    obtain ⟨_, after'⟩ := right
    obtain rfl : result = _ := same
    cases result with
    | error cause => exact ⟨_, _, after, after', rfl, rfl, next⟩
    | ok _ =>
      dsimp only
      rw [bisimulation.read next suits]
      exact ⟨_, _, after, after', rfl, rfl, next⟩

theorem session (bisimulation : Bisimulation Suits R) (related : R e d) (c : Checker)
    {requests : List (Checker.Request × World)} (suits : ∀ r ∈ requests, Suits r.2) :
    c.session e requests = c.session d requests := by
  induction requests generalizing c e d with
  | nil => rfl
  | cons r rest ih =>
    obtain ⟨now, later⟩ := List.forall_mem_cons.mp suits
    obtain ⟨result, next, after, after', left, right, onward⟩ :=
      bisimulation.serve related now c r.1
    simp only [Checker.session, left, right]
    rw [ih onward next later]

end Evaluator.Bisimulation

namespace ClockLabelling

variable {c : ClockLabelling} {p : Pipeline} {rules : List (String × (Tick → Bool))}
  {world start : World}

/-- The rules of a clock as rules for propositions, which look at nothing but the tick. -/
def unscoped (rules : List (String × (Tick → Bool))) : List (String × Rule Bool) :=
  rules.map fun r => (r.1, .computed fun _ tick => .ok (r.2 tick))

/-- Each rule with its truth value at a tick. -/
def valuesAt (rules : List (String × (Tick → Bool))) (tick : Tick) : List (String × Bool) :=
  rules.map fun r => (r.1, r.2 tick)

theorem names_unscoped (rules : List (String × (Tick → Bool))) :
    (unscoped rules).map (·.1) = rules.map (·.1) := by
  rw [unscoped, List.map_map]
  rfl

theorem evaluateFrom_unscoped (rules : List (String × (Tick → Bool))) (world : World)
    (outer : List Entry) (tick : Tick) (inner : List Entry) :
    Table.evaluateFrom Value.bool world outer tick inner (unscoped rules) =
      .ok (valuesAt rules tick) := by
  -- Each rule sees the values of those before it, so this is shown for any inner entries.
  induction rules generalizing inner with
  | nil => rfl
  | cons r rest ih =>
    have later := ih (inner ++ [(r.1, .bool (r.2 tick))])
    simp only [unscoped, valuesAt] at later
    simp only [unscoped, valuesAt, List.map_cons, Table.evaluateFrom, Rule.evaluate, later]

theorem observation_evaluateAt (c : ClockLabelling) (tick : Tick) :
    (c.evaluateAt tick).observation = Observation.ofList ((valuesAt c.rules tick).map (·.2)) := by
  rw [valuesAt, List.map_map]
  rfl

/-- What is read back from the packed observation is what the rules gave. -/
theorem values_evaluateAt (room : c.rules.length ≤ Observation.capacity) (tick : Tick) :
    (c.evaluateAt tick).values = valuesAt c.rules tick := by
  have short : (c.rules.map fun r => r.2 tick).length ≤ Observation.capacity := by
    rwa [List.length_map]
  have read := Observation.toList_ofList short
  rw [List.length_map] at read
  change (c.rules.map (·.1)).zip ((c.sample tick).toList c.rules.length) = valuesAt c.rules tick
  rw [sample, read, valuesAt]
  exact List.zip_map' ..

theorem entries_evaluateAt (room : c.rules.length ≤ Observation.capacity) (tick : Tick) :
    (c.evaluateAt tick).entries = entriesOf Value.bool (valuesAt c.rules tick) := by
  rw [← values_evaluateAt room]
  rfl

/-- A pipeline without definitions whose propositions are those of a clock, with the values
that the clock has at its tick. -/
structure Mirrors (c : ClockLabelling) (p : Pipeline) : Prop where
  room : c.rules.length ≤ Observation.capacity
  undefined : p.definitions.table.rules = []
  rules : p.propositions.table.rules = unscoped c.rules
  level : p.definitions.tick = c.tick
  nothing : p.definitions.entries = []
  tick : p.propositions.tick = c.tick
  observation : c.observation = p.observation
  entries : c.entries = p.propositions.entries

theorem mirrors_evaluateAt (room : c.rules.length ≤ Observation.capacity)
    (undefined : p.definitions.table.rules = [])
    (rules : p.propositions.table.rules = unscoped c.rules) {tick : Tick}
    (level : p.definitions.tick = tick) (nothing : p.definitions.entries = [])
    (now : p.propositions.tick = tick) (values : p.propositions.values = valuesAt c.rules tick) :
    (c.evaluateAt tick).Mirrors p where
  room := room
  undefined := undefined
  rules := rules
  level := level
  nothing := nothing
  tick := now
  observation := by
    rw [observation_evaluateAt, Pipeline.observation, Propositions.observation, values]
  entries := by
    rw [entries_evaluateAt room, Propositions.entries, values]
    rfl

theorem value_call (c : ClockLabelling) (k : Pipeline.Call) (world : World) :
    (Evaluator.call c k world).value = (.ok (), c.evaluateAt (k.target c.tick)) := by
  cases k <;> rfl

theorem Mirrors.call (mirrors : c.Mirrors p) (k : Pipeline.Call) (world : World) :
    (Evaluator.call p k world).value.1 = .ok () ∧
      (c.evaluateAt (k.target c.tick)).Mirrors (Evaluator.call p k world).value.2 := by
  have same : Evaluator.call p k world = p.call k world := by
    cases k <;> rfl
  rw [same, Pipeline.value_call, Definitions.value_evaluateAt, Table.value_evaluate,
    mirrors.undefined, mirrors.level, Pipeline.tick, mirrors.tick]
  simp only [Table.evaluateFrom, Propositions.value_evaluateAt, if_true, Table.value_evaluate,
    mirrors.rules, evaluateFrom_unscoped]
  refine ⟨trivial, mirrors_evaluateAt mirrors.room ?_ ?_ rfl rfl rfl rfl⟩
  · exact mirrors.undefined
  · exact mirrors.rules

theorem Mirrors.alphabet (mirrors : c.Mirrors p) :
    Evaluator.alphabet c = Evaluator.alphabet p := by
  change Alphabet.mk (c.rules.map (·.1)) = Alphabet.mk (p.propositions.table.rules.map (·.1))
  rw [mirrors.rules, names_unscoped]

theorem Mirrors.read (mirrors : c.Mirrors p) (bare : world.Bare) :
    Evaluator.read world c = Evaluator.read world p := by
  have scope : c.scope world = p.scope world := by
    rw [Pipeline.scope, mirrors.nothing, ClockLabelling.scope, mirrors.entries, ← bare]
  change Reading.mk c.tick c.observation (c.scope world) =
    Reading.mk p.propositions.tick p.observation (p.scope world)
  rw [mirrors.observation, scope, mirrors.tick]

/-- A clock and a pipeline that mirrors it cannot be told apart where there are no objects. -/
theorem bisimulation : Evaluator.Bisimulation World.Bare Mirrors where
  alphabet mirrors := mirrors.alphabet
  read mirrors bare := mirrors.read bare
  call k mirrors _ := by
    obtain ⟨answer, onward⟩ := mirrors.call k _
    rw [value_call, answer]
    exact ⟨rfl, onward⟩

/-- Names are refused as they would be by a table that remembers those it has seen. -/
theorem enroll_eq {alphabet : Alphabet} {seen names : List String}
    (same : ∀ name, name ∈ seen ↔ name ∈ alphabet.names) :
    enroll alphabet names =
      match firstRepeated seen names with
      | some name => .error (.duplicateName .propositions name)
      | none => .ok ⟨alphabet.names ++ names⟩ := by
  induction names generalizing alphabet seen with
  | nil => simp [enroll, firstRepeated]
  | cons name rest ih =>
    have known : alphabet.index? name = none ↔ name ∉ seen := by
      rw [Alphabet.index?, List.findIdx?_eq_none_iff, same]
      exact ⟨fun others member => by simpa using others name member,
        fun absent other member => by simpa using ne_of_mem_of_not_mem member absent⟩
    rw [enroll, firstRepeated]
    by_cases member : name ∈ seen
    · obtain ⟨index, found⟩ := Option.ne_none_iff_exists'.mp fun none => known.mp none member
      rw [found, if_pos member]
    · rw [known.mpr member, if_neg member]
      have pushed : ∀ other, other ∈ name :: seen ↔ other ∈ (alphabet.push name).names := by
        intro other
        simp [Alphabet.push, same, or_comm]
      rw [ih pushed, List.append_cons]
      rfl

theorem enroll_empty (names : List String) :
    enroll .empty names =
      match firstRepeated [] names with
      | some name => .error (.duplicateName .propositions name)
      | none => .ok ⟨names⟩ := by
  have same : ∀ name, name ∈ [] ↔ name ∈ Alphabet.empty.names := fun _ => Iff.rfl
  exact enroll_eq same

theorem build_ok (built : ClockLabelling.build rules = .ok c) :
    rules.length ≤ Observation.capacity ∧ ∃ blank : ClockLabelling,
      blank.rules = rules ∧ c = blank.evaluateAt 0 := by
  unfold ClockLabelling.build at built
  split at built
  · contradiction
  split at built
  · rename_i room
    exact ⟨room, _, rfl, (Except.ok.inj built).symm⟩
  · contradiction

/-- A clock and the pipeline of its rules are related from the start. -/
theorem mirrors_of_build (built : ClockLabelling.build rules = .ok c)
    (labelled : (Pipeline.build [] (unscoped rules) start).value = .ok p) : c.Mirrors p := by
  obtain ⟨room, blank, rfl, rfl⟩ := build_ok built
  obtain ⟨lower, upper⟩ := Pipeline.build_eq_ok_iff.mp labelled
  obtain ⟨defined, _, level, entries⟩ := Definitions.build_eq_ok_iff.mp lower
  obtain ⟨compiled, _, _, _, _, tick, values⟩ := Propositions.build_eq_ok_iff.mp upper
  obtain ⟨_, undefined⟩ := Table.build_eq_ok_iff.mp defined
  obtain ⟨_, same⟩ := Table.build_eq_ok_iff.mp compiled
  rw [Table.value_evaluate, undefined] at entries
  rw [Table.value_evaluate, same, evaluateFrom_unscoped] at values
  exact mirrors_evaluateAt room undefined same level (Except.ok.inj entries).symm tick
    (Except.ok.inj values).symm

theorem build_undefined (start : World) :
    (Definitions.build [] start).value = .ok ⟨⟨.definitions, [], .nil⟩, 0, []⟩ := by
  apply Definitions.build_eq_ok_iff.mpr
  refine ⟨Table.build_eq_ok_iff.mpr ⟨rfl, rfl⟩, ?_, rfl, rfl⟩
  exact fun _ _ => List.not_mem_nil

/-- A clock can be built from the same rules as the pipeline, and fails for the same reason. -/
theorem build_eq (bare : start.Bare) : (ClockLabelling.build rules).map (fun _ => ()) =
    (Pipeline.build [] (unscoped rules) start).value.map fun _ => () := by
  have apart : start.objects.keys = [] := by
    rw [bare]
    rfl
  rw [Pipeline.build, Logged.value_bind, build_undefined, ClockLabelling.build, enroll_empty,
    ← names_unscoped]
  dsimp only
  rw [Logged.value_bind, Propositions.build, Propositions.prepare]
  -- Both refuse a repeated name first and too many names next. A table could also clash with
  -- the names of objects and definitions, of which there are none.
  cases repeated : firstRepeated [] ((unscoped rules).map (·.1)) with
  | some name =>
    rw [Table.build_of_repeated .propositions repeated]
    rfl
  | none =>
    rw [Table.build_of_distinct .propositions repeated]
    dsimp only
    rw [Table.size, show (unscoped rules).length = rules.length from List.length_map _]
    by_cases room : rules.length ≤ Observation.capacity
    · rw [if_pos room, if_pos room, apart, Table.rejectNames_eq_ok_iff.mpr (by simp)]
      dsimp only
      rw [Table.rejectNames_eq_ok_iff.mpr (by simp [Definitions.names, Table.names])]
      simp only [Except.map, Propositions.reset]
      rw [Logged.value_bind, Propositions.value_evaluateAt, if_pos rfl, Table.value_evaluate,
        evaluateFrom_unscoped]
      rfl
    · rw [if_neg room, if_neg room]
      rfl

/-- A clock is as good as the pipeline of its rules, without definitions and objects. Both can
be built from the same rules and fail alike otherwise. After the same calls both show the same
tick, observation, scope and alphabet, so that the same checkers can be built over them, and
every checker gives the same answers over either. -/
theorem clock_agrees (rules : List (String × (Tick → Bool))) (bare : start.Bare) :
    (ClockLabelling.build rules).map (fun _ => ()) =
        (Pipeline.build [] (unscoped rules) start).value.map (fun _ => ()) ∧
      ∀ c p, ClockLabelling.build rules = .ok c →
        (Pipeline.build [] (unscoped rules) start).value = .ok p →
        ∀ calls : List (Pipeline.Call × World), (∀ call ∈ calls, call.2.Bare) →
          (Evaluator.run c calls).1 = (Evaluator.run p calls).1 ∧
          (∀ world, world.Bare → Evaluator.read world (Evaluator.run c calls).2 =
            Evaluator.read world (Evaluator.run p calls).2) ∧
          Evaluator.alphabet (Evaluator.run c calls).2 =
            Evaluator.alphabet (Evaluator.run p calls).2 ∧
          ∀ checker : Checker, ∀ requests : List (Checker.Request × World),
            (∀ request ∈ requests, request.2.Bare) →
            checker.session (Evaluator.run c calls).2 requests =
              checker.session (Evaluator.run p calls).2 requests := by
  refine ⟨build_eq bare, fun c p built labelled calls suits => ?_⟩
  obtain ⟨answers, related⟩ := bisimulation.run (mirrors_of_build built labelled) suits
  exact ⟨answers, fun world => related.read, related.alphabet,
    fun checker requests => bisimulation.session related checker⟩

/-- A proposition of the first ticks and one of the odd ones. -/
def early : List (String × (Tick → Bool)) := [("early", (· < 3)), ("odd", (· % 2 == 1))]

/-- Rewards `odd` as long as it is early, and cannot read an object. -/
def greedy : Checker :=
  ⟨[⟨"odd", .start (.atom 1), .computed fun scope _ => (scope.flag "early").bind fun flag =>
      if flag then .ok 1 else (scope.object "early").map fun _ => 2, .satisfaction, true, false⟩],
    fun left right => left + right⟩

/-- To tick two, past a reset. -/
def detour : List (Pipeline.Call × World) :=
  [(.step, Pipeline.claimed), (.reset, World.empty), (.step, World.empty),
    (.step, Pipeline.claimed)]

/-- On to the third tick, and once more from the start. -/
def requested : List (Checker.Request × World) :=
  [(.check, World.empty), (.call .step, World.empty), (.call .reset, World.empty),
    (.call .step, World.empty)]

/-- The third tick is odd and not early any more, where the reward fails over both. -/
theorem clock_agrees_early : ∃ c p, ClockLabelling.build early = .ok c ∧
    (Pipeline.build [] (unscoped early) World.empty).value = .ok p ∧
    (Evaluator.run c detour).2.tick = 2 ∧
    (Evaluator.read World.empty (Evaluator.run p detour).2).observation = .ofNat 1 ∧
    Evaluator.read World.empty (Evaluator.run c detour).2 =
      Evaluator.read World.empty (Evaluator.run p detour).2 ∧
    (∃ second zeroth first, greedy.session (Evaluator.run p detour).2 requested =
      [.ok second, .error (.evaluation (.unknownObject "early")), .ok zeroth, .ok first]) ∧
    greedy.session (Evaluator.run c detour).2 requested =
      greedy.session (Evaluator.run p detour).2 requested := by
  have bare : World.empty.Bare := rfl
  have built : ClockLabelling.build early = .ok (.reset ⟨early, 0, .empty, []⟩) := rfl
  have labelled : (Pipeline.build [] (unscoped early) World.empty).value = .ok _ := rfl
  have suits : ∀ call ∈ detour, call.2.Bare := by
    simp [detour, World.Bare, World.empty, Pipeline.claimed]
  have requests : ∀ request ∈ requested, request.2.Bare := by
    simp [requested, World.Bare, World.empty]
  obtain ⟨_, shown, _, checked⟩ := (clock_agrees early bare).2 _ _ built labelled detour suits
  exact ⟨_, _, built, labelled, rfl, rfl, shown World.empty bare, ⟨_, _, _, rfl⟩,
    checked greedy requested requests⟩

end ClockLabelling

end TemporalRewards
