import TemporalRewards.Proofs.Labelling.Building
import TemporalRewards.Proofs.Labelling.Packing

/-! Calls of a pipeline. A call evaluates the definitions and then the propositions over
them, each table at a tick of its own, and can end in four ways. A call that succeeds
leaves both tables at one tick, evaluated in that call, whatever failed before it. -/
namespace TemporalRewards

namespace Pipeline

inductive Call
  | reset
  | step

/-- The tick that a call takes a table to. -/
def Call.target : Call → Tick → Tick
  | reset, _ => 0
  | step, tick => tick + 1

def call (p : Pipeline) : Call → World → Logged (Except EvalError Unit × Pipeline)
  | .reset => p.reset
  | .step => p.step

variable {p first after : Pipeline} {c : Call} {world start : World} {tick : Tick}
  {definitions : List (String × Rule Value)} {propositions : List (String × Rule Bool)}
  {result : Except EvalError Unit}

/-- The ways in which a call can end, with its answer and the pipeline after it. -/
inductive Outcome (p : Pipeline) (c : Call) (world : World) :
    Except EvalError Unit → Pipeline → Prop where
  /-- A definition failed. -/
  | undefined {e : EvalError} :
      (p.definitions.table.evaluate id world [] (c.target p.definitions.tick)).value = .error e →
      Outcome p c world (.error e) p
  /-- The propositions ask for another tick than the one that the definitions are at now. -/
  | apart {entries : List Entry} :
      (p.definitions.table.evaluate id world [] (c.target p.definitions.tick)).value =
        .ok entries →
      c.target p.definitions.tick ≠ c.target p.tick →
      Outcome p c world (.error (.outOfSync (c.target p.definitions.tick) (c.target p.tick)))
        ⟨{ p.definitions with tick := c.target p.definitions.tick, entries }, p.propositions⟩
  /-- A proposition failed over the new definitions. -/
  | unlabelled {entries : List Entry} {e : EvalError} :
      (p.definitions.table.evaluate id world [] (c.target p.definitions.tick)).value =
        .ok entries →
      c.target p.definitions.tick = c.target p.tick →
      (p.propositions.table.evaluate Value.bool world entries (c.target p.tick)).value =
        .error e →
      Outcome p c world (.error e)
        ⟨{ p.definitions with tick := c.target p.definitions.tick, entries }, p.propositions⟩
  | labelled {entries : List Entry} {values : List (String × Bool)} :
      (p.definitions.table.evaluate id world [] (c.target p.definitions.tick)).value =
        .ok entries →
      c.target p.definitions.tick = c.target p.tick →
      (p.propositions.table.evaluate Value.bool world entries (c.target p.tick)).value =
        .ok values →
      Outcome p c world (.ok ())
        ⟨{ p.definitions with tick := c.target p.definitions.tick, entries },
          { p.propositions with tick := c.target p.tick, values }⟩

/-- Both calls evaluate the definitions and then the propositions, each at its target. -/
theorem value_call (p : Pipeline) (c : Call) (world : World) :
    (p.call c world).value =
      match (p.definitions.evaluateAt world (c.target p.definitions.tick)).value with
      | (.error e, definitions) => (.error e, { p with definitions })
      | (.ok (), definitions) =>
        let (result, propositions) :=
          (p.propositions.evaluateAt definitions world (c.target p.tick)).value
        (result, ⟨definitions, propositions⟩) := by
  cases c with
  | reset =>
    simp only [call, reset, Definitions.reset, Logged.value_bind, Call.target]
    rcases (p.definitions.evaluateAt world 0).value with ⟨_ | _, definitions⟩ <;> rfl
  | step =>
    simp only [call, step, Definitions.step, Logged.value_bind, Call.target]
    rcases (p.definitions.evaluateAt world (p.definitions.tick + 1)).value
      with ⟨_ | _, definitions⟩ <;> rfl

theorem call_outcome (called : (p.call c world).value = (result, after)) :
    Outcome p c world result after := by
  rw [value_call, Definitions.value_evaluateAt] at called
  rcases defined : (p.definitions.table.evaluate id world [] (c.target p.definitions.tick)).value
    with e | entries
  · simp only [defined, Prod.mk.injEq] at called
    obtain ⟨rfl, rfl⟩ := called
    exact .undefined defined
  simp only [defined, Propositions.value_evaluateAt] at called
  by_cases same : c.target p.definitions.tick = c.target p.tick
  · rcases labels : (p.propositions.table.evaluate Value.bool world entries
      (c.target p.tick)).value with e | values
    · simp only [if_pos same, labels, Prod.mk.injEq] at called
      obtain ⟨rfl, rfl⟩ := called
      exact .unlabelled defined same labels
    · simp only [if_pos same, labels, Prod.mk.injEq] at called
      obtain ⟨rfl, rfl⟩ := called
      exact .labelled defined same labels
  · simp only [if_neg same, Prod.mk.injEq] at called
    obtain ⟨rfl, rfl⟩ := called
    exact .apart defined same

theorem Outcome.tables (outcome : Outcome p c world result after) :
    after.definitions.table = p.definitions.table ∧
      after.propositions.table = p.propositions.table := by
  cases outcome <;> exact ⟨rfl, rfl⟩

/-- The propositions never change in a call that fails. -/
theorem Outcome.propositions_error {e : EvalError}
    (outcome : Outcome p c world (.error e) after) :
    after.propositions = p.propositions := by
  cases outcome <;> rfl

theorem Outcome.tick_ok (outcome : Outcome p c world (.ok ()) after) :
    after.tick = c.target p.tick := by
  cases outcome
  rfl

/-- What becomes of a pipeline by calls, failed or not, each in a world of its own. -/
inductive Reached (first : Pipeline) : Pipeline → Prop where
  | built : Reached first first
  | call {p : Pipeline} (c : Call) (world : World) :
      Reached first p → Reached first (p.call c world).value.2

theorem Reached.tables (reached : Reached first p) :
    p.definitions.table = first.definitions.table ∧
      p.propositions.table = first.propositions.table := by
  induction reached with
  | built => exact ⟨rfl, rfl⟩
  | call c world _ ih =>
    obtain ⟨definitions, propositions⟩ := (call_outcome (Prod.eta _).symm).tables
    exact ⟨definitions.trans ih.1, propositions.trans ih.2⟩

/-- Both tables at one tick: the definitions as their rules give them in a world, the
propositions as theirs give them over these definitions, and proposition `i` at bit `i`. -/
structure Evaluated (p : Pipeline) (definitions : List (String × Rule Value))
    (propositions : List (String × Rule Bool)) (world : World) (tick : Tick) : Prop where
  definitionsTick : p.definitions.tick = tick
  propositionsTick : p.propositions.tick = tick
  definitions : Sequential id world [] tick [] definitions p.definitions.entries
  propositions : ∃ values,
    Sequential Value.bool world p.definitions.entries tick [] propositions values ∧
      p.propositions.entries = entriesOf .bool values ∧
      ∀ i, p.observation.get i = ((values[i]?).map (·.2)).getD false

theorem evaluated_of_tables (room : p.propositions.table.size ≤ Observation.capacity)
    (definitionsTick : p.definitions.tick = tick) (propositionsTick : p.propositions.tick = tick)
    (defined : (p.definitions.table.evaluate id world [] tick).value = .ok p.definitions.entries)
    (labels : (p.propositions.table.evaluate Value.bool world p.definitions.entries tick).value =
      .ok p.propositions.values) :
    p.Evaluated p.definitions.table.rules p.propositions.table.rules world tick := by
  have sequential := Table.evaluate_eq_ok_iff.mp labels
  refine ⟨definitionsTick, propositionsTick, Table.evaluate_eq_ok_iff.mp defined,
    p.propositions.values, sequential, rfl, ?_⟩
  intro i
  have short : (p.propositions.values.map (·.2)).length ≤ Observation.capacity := by
    rw [List.length_map, sequential.length_eq]
    exact room
  rw [observation, Propositions.observation, Observation.get_ofList, List.take_of_length_le short,
    List.getElem?_map]

/-- A pipeline that was built has the given rules and stands at tick zero. -/
theorem build_ok (built : (build definitions propositions start).value = .ok first) :
    first.definitions.table.rules = definitions ∧ first.propositions.table.rules = propositions ∧
      first.propositions.table.size ≤ Observation.capacity ∧
      first.Evaluated definitions propositions start 0 := by
  obtain ⟨lower, upper⟩ := build_eq_ok_iff.mp built
  obtain ⟨defined, _, zero, entries⟩ := Definitions.build_eq_ok_iff.mp lower
  obtain ⟨labelled, room, _, _, _, zero', values⟩ := Propositions.build_eq_ok_iff.mp upper
  obtain ⟨_, rfl⟩ := Table.build_eq_ok_iff.mp defined
  obtain ⟨_, rfl⟩ := Table.build_eq_ok_iff.mp labelled
  exact ⟨rfl, rfl, room, evaluated_of_tables room zero zero' entries values⟩

/-- A call that succeeds leaves both tables at the tick it was to take the pipeline to,
the definitions evaluated there and the propositions over them, after any history of calls
in which any rules failed. -/
theorem call_evaluates (built : (build definitions propositions start).value = .ok first)
    (reached : Reached first p) (succeeded : (p.call c world).value = (.ok (), after)) :
    after.Evaluated definitions propositions world (c.target p.tick) := by
  obtain ⟨rfl, rfl, room, _⟩ := build_ok built
  obtain ⟨definitions, propositions⟩ := reached.tables
  cases call_outcome succeeded with
  | labelled defined same labels =>
    rw [← definitions, ← propositions]
    rw [← propositions] at room
    exact evaluated_of_tables room same rfl (same ▸ defined) labels

/-- The world in which the priority is taken. -/
def claimed : World := { World.empty with priority := ⟨some "other"⟩ }

def evenTick : List (String × Rule Value) :=
  [("even", .computed fun _ tick => .ok (.bool (tick % 2 == 0)))]

/-- A proposition over the definition, which fails while the priority is taken. -/
def oddWhileFree : List (String × Rule Bool) :=
  [("odd", .computed fun scope _ =>
    if scope.world.priority.has "other" then .error (.custom "claimed")
    else (scope.flag "even").map not)]

def oddity : Pipeline :=
  { definitions := ⟨⟨.definitions, evenTick, by decide⟩, 0, [("even", .bool true)]⟩
    propositions := ⟨⟨.propositions, oddWhileFree, by decide⟩, 0, [("odd", false)]⟩ }

/-- After a step, a reset that failed past the definitions, and a step out of sync. -/
def lagging : Pipeline :=
  (((oddity.call .step World.empty).value.2.call .reset claimed).value.2.call .step
    World.empty).value.2

/-- The next step succeeds, at the tick after the last one that succeeded. -/
theorem call_evaluates_lagging : Reached oddity lagging ∧ lagging.tick = 1 ∧
    ∃ after, (lagging.call .step World.empty).value = (.ok (), after) ∧
      after.Evaluated evenTick oddWhileFree World.empty 2 := by
  have built : (build evenTick oddWhileFree World.empty).value = .ok oddity := rfl
  have reached : Reached oddity lagging :=
    (((Reached.built.call .step World.empty).call .reset claimed).call .step World.empty)
  have succeeded : (lagging.call .step World.empty).value =
      (.ok (), (lagging.call .step World.empty).value.2) := rfl
  exact ⟨reached, rfl, _, succeeded, call_evaluates built reached succeeded⟩

end Pipeline

end TemporalRewards
