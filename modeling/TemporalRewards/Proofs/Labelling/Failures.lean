import TemporalRewards.Proofs.Labelling.Calls

/-! Calls of a pipeline that fail. A table that fails keeps its tick and its values, but
the definitions do not go back when the propositions fail after them. A reset can be made
again with the same result; a step that got past the definitions cannot. -/
namespace TemporalRewards.Pipeline

variable {p q after : Pipeline} {c : Call} {world : World} {e : EvalError}
  {result : Except EvalError Unit}

/-- A definition fails in the call. -/
def Undefined (p : Pipeline) (c : Call) (world : World) : Prop :=
  ∃ e, (p.definitions.table.evaluate id world [] (c.target p.definitions.tick)).value = .error e

/-- A call that left nothing behind: all that can be read is as before, and the same call
again has the result in every world that it would have had before. -/
structure Intact (p : Pipeline) (c : Call) (after : Pipeline) : Prop where
  tick : after.tick = p.tick
  observation : after.observation = p.observation
  definitionsTick : after.definitions.tick = p.definitions.tick
  definitions : after.definitions.entries = p.definitions.entries
  propositions : after.propositions.entries = p.propositions.entries
  again : ∀ world, (after.call c world).value = (p.call c world).value

theorem Intact.refl (p : Pipeline) (c : Call) : p.Intact c p :=
  ⟨rfl, rfl, rfl, rfl, rfl, fun _ => rfl⟩

/-- Past the definitions, a call that fails has moved them. -/
theorem Outcome.definitions_moved (outcome : Outcome p c world result after)
    (defined : ¬ p.Undefined c world) :
    after.definitions.tick = c.target p.definitions.tick ∧
      (p.definitions.table.evaluate id world [] (c.target p.definitions.tick)).value =
        .ok after.definitions.entries := by
  cases outcome with
  | undefined failed => exact absurd ⟨_, failed⟩ defined
  | apart evaluated _ => exact ⟨rfl, evaluated⟩
  | unlabelled evaluated _ _ => exact ⟨rfl, evaluated⟩
  | labelled evaluated _ _ => exact ⟨rfl, evaluated⟩

theorem Outcome.eq_of_undefined (outcome : Outcome p c world result after)
    (undefined : p.Undefined c world) : after = p := by
  obtain ⟨_, failed⟩ := undefined
  cases outcome with
  | undefined _ => rfl
  | apart evaluated _ | unlabelled evaluated _ _ | labelled evaluated _ _ =>
    rw [evaluated] at failed
    contradiction

theorem Outcome.intact_iff (outcome : Outcome p c world (.error e) after) :
    p.Intact c after ↔ p.Undefined c world ∨ c = .reset ∧ p.definitions.tick = 0 ∧
      (p.definitions.table.evaluate id world [] 0).value = .ok p.definitions.entries := by
  by_cases undefined : p.Undefined c world
  · rw [outcome.eq_of_undefined undefined]
    exact iff_of_true (.refl p c) (.inl undefined)
  obtain ⟨tick, entries⟩ := outcome.definitions_moved undefined
  constructor
  · intro intact
    rw [intact.definitionsTick] at tick
    rw [intact.definitions] at entries
    cases c with
    | reset => exact .inr ⟨rfl, tick, entries⟩
    | step => exact absurd tick (Nat.succ_ne_self _).symm
  · rintro (undefined' | ⟨rfl, zero, again⟩)
    · exact absurd undefined' undefined
    -- Ticks and entries come out as they were, so the pipeline as a whole does.
    have same : after = p :=
      calc after = ⟨⟨after.definitions.table, after.definitions.tick, after.definitions.entries⟩,
            after.propositions⟩ := rfl
        _ = ⟨⟨p.definitions.table, p.definitions.tick, p.definitions.entries⟩,
            p.propositions⟩ := by
          rw [outcome.tables.1, tick, zero, Except.ok.inj (entries.symm.trans again),
            outcome.propositions_error]
          rfl
        _ = p := rfl
    rw [same]
    exact .refl p .reset

/-- A reset depends on the rules only. -/
theorem reset_congr (definitions : q.definitions.table = p.definitions.table)
    (propositions : q.propositions.table = p.propositions.table) (world : World) :
    (q.reset world).value.1 = (p.reset world).value.1 ∧
      ((p.reset world).value.1 = .ok () → (q.reset world).value = (p.reset world).value) := by
  have reset : ∀ r : Pipeline, r.reset world = r.call .reset world := fun _ => rfl
  rw [reset, reset, value_call, value_call, Definitions.value_evaluateAt,
    Definitions.value_evaluateAt, definitions]
  simp only [Call.target]
  cases (p.definitions.table.evaluate id world [] 0).value with
  | error e => simp
  | ok entries =>
    simp only [Propositions.value_evaluateAt, propositions, if_true]
    cases (p.propositions.table.evaluate Value.bool world entries 0).value <;> simp

/-- The definitions are ahead of the propositions, and no step brings them back. -/
theorem step_ahead (ahead : p.tick < p.definitions.tick)
    (called : (p.step world).value = (result, after)) :
    result ≠ .ok () ∧ after.tick < after.definitions.tick := by
  have apart : Call.step.target p.definitions.tick ≠ Call.step.target p.tick :=
    fun same => Nat.ne_of_gt ahead (Nat.succ.inj same)
  cases call_outcome (c := .step) called with
  | undefined _ => exact ⟨nofun, ahead⟩
  | apart _ _ => exact ⟨nofun, Nat.lt_succ_of_lt ahead⟩
  | unlabelled _ same _ => exact absurd same apart
  | labelled _ same _ => exact absurd same apart

/-- Steps, failed or not, one in each world. -/
def stepAll (p : Pipeline) (worlds : List World) : Pipeline :=
  worlds.foldl (fun q world => (q.step world).value.2) p

theorem stepAll_ahead (ahead : p.tick < p.definitions.tick) (worlds : List World) :
    (p.stepAll worlds).tick < (p.stepAll worlds).definitions.tick := by
  induction worlds generalizing p with
  | nil => exact ahead
  | cons world rest ih => exact ih (step_ahead ahead (Prod.eta _).symm).2

/-- A call that fails keeps the propositions. It leaves nothing behind just when it failed
in the definitions, or was a reset at tick zero that found the same definitions again. A
reset can be made again after it, with the result that it would have had; but when a step
fails past the definitions, no step after it succeeds, in whatever worlds. -/
theorem failed_call (failed : (p.call c world).value = (.error e, after)) :
    after.propositions = p.propositions ∧
      (p.Intact c after ↔ p.Undefined c world ∨ c = .reset ∧ p.definitions.tick = 0 ∧
        (p.definitions.table.evaluate id world [] 0).value = .ok p.definitions.entries) ∧
      (∀ repaired, (after.reset repaired).value.1 = (p.reset repaired).value.1 ∧
        ((p.reset repaired).value.1 = .ok () →
          (after.reset repaired).value = (p.reset repaired).value)) ∧
      (c = .step → p.tick ≤ p.definitions.tick → ¬ p.Undefined c world →
        ∀ worlds repaired, ((after.stepAll worlds).step repaired).value.1 ≠ .ok ()) := by
  have outcome := call_outcome failed
  have kept := outcome.propositions_error
  refine ⟨kept, outcome.intact_iff, ?_, ?_⟩
  · exact reset_congr outcome.tables.1 outcome.tables.2
  · rintro rfl level defined worlds repaired
    have ahead : after.tick < after.definitions.tick := by
      rw [(outcome.definitions_moved defined).1, tick, kept]
      exact Nat.lt_succ_of_le level
    exact (step_ahead (stepAll_ahead ahead worlds) (Prod.eta _).symm).1

theorem oddity_claimed : (oddity.call .step claimed).value =
    (.error (.rule "odd" 1 (.custom "claimed")), (oddity.call .step claimed).value.2) := rfl

/-- The step whose proposition fails keeps the tick and loses the following ones. -/
theorem failed_call_oddity : ∃ e after, (oddity.call .step claimed).value = (.error e, after) ∧
    after.tick = 0 ∧ after.definitions.tick = 1 ∧
      ∀ worlds repaired, ((after.stepAll worlds).step repaired).value.1 ≠ .ok () := by
  obtain ⟨_, _, _, lost⟩ := failed_call oddity_claimed
  have defined : ¬ oddity.Undefined .step claimed := by
    rintro ⟨_, undefined⟩
    contradiction
  exact ⟨_, _, oddity_claimed, rfl, rfl, lost rfl (Nat.le_refl 0) defined⟩

/-- Not every call that fails leaves nothing behind. -/
theorem not_intact_oddity :
    ¬ ∀ {definitions propositions} {start world : World} {first p after : Pipeline} {c : Call}
        {e : EvalError}, (build definitions propositions start).value = .ok first →
      Reached first p → (p.call c world).value = (.error e, after) → p.Intact c after := by
  intro atomic
  have built : (build evenTick oddWhileFree World.empty).value = .ok oddity := rfl
  have unmoved := (atomic built .built oddity_claimed).definitionsTick
  contradiction

end TemporalRewards.Pipeline
