import TemporalRewards.Labelling.Pipeline
import TemporalRewards.Proofs.Labelling.Sequential

/-! What labellings can be built from. A table takes rules whose names are distinct, and the
tables of a pipeline also keep apart from the names below them. Each is then evaluated for the
first time, at tick zero. -/
namespace TemporalRewards

theorem firstRepeated_eq_none_iff {seen names : List String} :
    firstRepeated seen names = none ↔ names.Nodup ∧ ∀ name ∈ names, name ∉ seen := by
  refine ⟨nodup_of_firstRepeated, ?_⟩
  induction names generalizing seen with
  | nil => exact fun _ => rfl
  | cons name rest ih =>
    rintro ⟨distinct, fresh⟩
    obtain ⟨apart, distinct⟩ := List.nodup_cons.mp distinct
    obtain ⟨first, others⟩ := List.forall_mem_cons.mp fresh
    rw [firstRepeated, if_neg first]
    refine ih ⟨distinct, fun other member => ?_⟩
    exact List.not_mem_cons_of_ne_of_not_mem (ne_of_mem_of_not_mem member apart)
      (others other member)

namespace Table

variable {α : Type} {kind : TableKind} {rules : List (String × Rule α)} {t : Table α}

theorem build_of_repeated {name : String} (kind : TableKind)
    (repeated : firstRepeated [] (rules.map (·.1)) = some name) :
    Table.build kind rules = .error (.duplicateName kind name) := by
  unfold Table.build
  split
  · rename_i other found
    obtain rfl := Option.some.inj (found.symm.trans repeated)
    rfl
  · rename_i none
    rw [none] at repeated
    contradiction

theorem build_of_distinct (kind : TableKind)
    (distinct : firstRepeated [] (rules.map (·.1)) = none) :
    Table.build kind rules = .ok ⟨kind, rules, (nodup_of_firstRepeated distinct).1⟩ := by
  unfold Table.build
  split
  · rename_i other found
    rw [found] at distinct
    contradiction
  · rfl

/-- A table has what it was built from, and every table can be built. -/
theorem build_eq_ok_iff : Table.build kind rules = .ok t ↔ t.kind = kind ∧ t.rules = rules := by
  constructor
  · intro built
    unfold Table.build at built
    split at built
    · contradiction
    · obtain rfl := Except.ok.inj built
      exact ⟨rfl, rfl⟩
  · rintro ⟨rfl, rfl⟩
    have distinct : firstRepeated [] (t.rules.map (·.1)) = none :=
      firstRepeated_eq_none_iff.mpr ⟨t.nodup, fun _ _ => List.not_mem_nil⟩
    exact build_of_distinct t.kind distinct

theorem rejectNames_eq_ok_iff {taken : List String} :
    t.rejectNames taken = .ok () ↔ ∀ name ∈ taken, name ∉ t.names := by
  have found : taken.find? (· ∈ t.names) = none ↔ ∀ name ∈ taken, name ∉ t.names := by simp
  rw [← found, rejectNames]
  cases taken.find? (· ∈ t.names) with
  | none => exact iff_of_true rfl rfl
  | some name => exact iff_of_false nofun nofun

end Table

namespace Definitions

variable {rules : List (String × Rule Value)} {world : World} {d : Definitions}

theorem value_evaluateAt (d : Definitions) (world : World) (tick : Tick) :
    (d.evaluateAt world tick).value =
      match (d.table.evaluate id world [] tick).value with
      | .error e => (.error e, d)
      | .ok entries => (.ok (), { d with tick, entries }) := by
  rw [evaluateAt, Logged.value_bind]
  cases (d.table.evaluate id world [] tick).value <;> rfl

theorem prepare_eq_ok_iff : prepare rules world = .ok d ↔
    Table.build .definitions rules = .ok d.table ∧
      (∀ name ∈ world.objects.keys, name ∉ d.names) ∧ d.tick = 0 ∧ d.entries = [] := by
  obtain ⟨table, tick, entries⟩ := d
  unfold prepare
  cases compiled : Table.build .definitions rules with
  | error e => simp
  | ok t =>
    dsimp only
    rw [Except.ok.injEq]
    constructor
    · intro prepared
      cases free : t.rejectNames world.objects.keys with
      | error e =>
        rw [free] at prepared
        contradiction
      | ok _ =>
        rw [free] at prepared
        obtain ⟨rfl, rfl, rfl⟩ := Definitions.mk.inj (Except.ok.inj prepared)
        exact ⟨rfl, Table.rejectNames_eq_ok_iff.mp free, rfl, rfl⟩
    · rintro ⟨rfl, free, rfl, rfl⟩
      rw [Table.rejectNames_eq_ok_iff.mpr free]
      rfl

theorem value_build (rules : List (String × Rule Value)) (world : World) :
    (build rules world).value =
      match prepare rules world with
      | .error e => .error e
      | .ok d =>
        match (d.table.evaluate id world [] 0).value with
        | .error e => .error (.initial e)
        | .ok entries => .ok ⟨d.table, 0, entries⟩ := by
  rw [build]
  cases prepare rules world with
  | error e => rfl
  | ok d =>
    simp only [Logged.value_bind, reset, value_evaluateAt]
    cases (d.table.evaluate id world [] 0).value <;> rfl

/-- Definitions are built from distinct names that no object has, if their rules give values
at tick zero. -/
theorem build_eq_ok_iff : (build rules world).value = .ok d ↔
    Table.build .definitions rules = .ok d.table ∧
      (∀ name ∈ world.objects.keys, name ∉ d.names) ∧ d.tick = 0 ∧
      (d.table.evaluate id world [] 0).value = .ok d.entries := by
  obtain ⟨table, tick, entries⟩ := d
  rw [value_build]
  constructor
  · intro built
    split at built
    · contradiction
    rename_i fresh prepared
    obtain ⟨compiled, apart, _, _⟩ := prepare_eq_ok_iff.mp prepared
    split at built
    · contradiction
    rename_i found defined
    obtain ⟨rfl, rfl, rfl⟩ := Definitions.mk.inj (Except.ok.inj built)
    exact ⟨compiled, apart, rfl, defined⟩
  · rintro ⟨compiled, apart, rfl, defined⟩
    have prepared : prepare rules world = .ok ⟨table, 0, []⟩ :=
      prepare_eq_ok_iff.mpr ⟨compiled, apart, rfl, rfl⟩
    simp only [prepared, defined]

end Definitions

namespace Propositions

variable {rules : List (String × Rule Bool)} {definitions : Definitions} {world : World}
  {p : Propositions}

theorem value_evaluateAt (p : Propositions) (definitions : Definitions)
    (world : World) (tick : Tick) :
    (p.evaluateAt definitions world tick).value =
      if definitions.tick = tick then
        match (p.table.evaluate Value.bool world definitions.entries tick).value with
        | .error e => (.error e, p)
        | .ok values => (.ok (), { p with tick, values })
      else (.error (.outOfSync definitions.tick tick), p) := by
  unfold evaluateAt
  split
  · rw [Logged.value_bind]
    cases (p.table.evaluate Value.bool world definitions.entries tick).value <;> rfl
  · rfl

theorem prepare_eq_ok_iff : prepare rules definitions world = .ok p ↔
    Table.build .propositions rules = .ok p.table ∧ p.size ≤ Observation.capacity ∧
      (∀ name ∈ world.objects.keys, name ∉ p.table.names) ∧
      (∀ name ∈ definitions.names, name ∉ p.table.names) ∧ p.tick = 0 ∧ p.values = [] := by
  obtain ⟨table, tick, values⟩ := p
  unfold prepare
  cases compiled : Table.build .propositions rules with
  | error e => simp
  | ok t =>
    dsimp only
    rw [Except.ok.injEq]
    constructor
    · intro prepared
      split at prepared
      · rename_i room
        cases apart : t.rejectNames world.objects.keys with
        | error e =>
          rw [apart] at prepared
          contradiction
        | ok _ =>
          cases free : t.rejectNames definitions.names with
          | error e =>
            rw [apart, free] at prepared
            contradiction
          | ok _ =>
            rw [apart, free] at prepared
            obtain ⟨rfl, rfl, rfl⟩ := Propositions.mk.inj (Except.ok.inj prepared)
            exact ⟨rfl, room, Table.rejectNames_eq_ok_iff.mp apart,
              Table.rejectNames_eq_ok_iff.mp free, rfl, rfl⟩
      · contradiction
    · rintro ⟨rfl, room, apart, free, rfl, rfl⟩
      rw [if_pos (show t.size ≤ Observation.capacity from room), Table.rejectNames_eq_ok_iff.mpr apart,
        Table.rejectNames_eq_ok_iff.mpr free]
      rfl

theorem value_build (rules : List (String × Rule Bool)) (definitions : Definitions)
    (world : World) :
    (build rules definitions world).value =
      match prepare rules definitions world with
      | .error e => .error e
      | .ok p =>
        if definitions.tick = 0 then
          match (p.table.evaluate Value.bool world definitions.entries 0).value with
          | .error e => .error (.initial e)
          | .ok values => .ok ⟨p.table, 0, values⟩
        else .error (.initial (.outOfSync definitions.tick 0)) := by
  rw [build]
  cases prepare rules definitions world with
  | error e => rfl
  | ok p =>
    simp only [Logged.value_bind, reset, value_evaluateAt]
    by_cases level : definitions.tick = 0
    · rw [if_pos level, if_pos level]
      cases (p.table.evaluate Value.bool world definitions.entries 0).value <;> rfl
    · rw [if_neg level, if_neg level]
      rfl

/-- Propositions are built from distinct names for which there is room and which no object and
no definition has, over definitions at tick zero, if their rules give values there. -/
theorem build_eq_ok_iff : (build rules definitions world).value = .ok p ↔
    Table.build .propositions rules = .ok p.table ∧ p.size ≤ Observation.capacity ∧
      (∀ name ∈ world.objects.keys, name ∉ p.table.names) ∧
      (∀ name ∈ definitions.names, name ∉ p.table.names) ∧
      definitions.tick = 0 ∧ p.tick = 0 ∧
      (p.table.evaluate Value.bool world definitions.entries 0).value = .ok p.values := by
  obtain ⟨table, tick, values⟩ := p
  rw [value_build]
  constructor
  · intro built
    split at built
    · contradiction
    rename_i fresh prepared
    obtain ⟨compiled, room, apart, free, _, _⟩ := prepare_eq_ok_iff.mp prepared
    split at built
    · rename_i level
      split at built
      · contradiction
      rename_i found labels
      obtain ⟨rfl, rfl, rfl⟩ := Propositions.mk.inj (Except.ok.inj built)
      exact ⟨compiled, room, apart, free, level, rfl, labels⟩
    · contradiction
  · rintro ⟨compiled, room, apart, free, level, rfl, labels⟩
    have prepared : prepare rules definitions world = .ok ⟨table, 0, []⟩ :=
      prepare_eq_ok_iff.mpr ⟨compiled, room, apart, free, rfl, rfl⟩
    simp only [prepared, if_pos level, labels]

end Propositions

/-- Both tables of a pipeline are built, the propositions over the definitions. -/
theorem Pipeline.build_eq_ok_iff {definitions : List (String × Rule Value)}
    {propositions : List (String × Rule Bool)} {world : World} {p : Pipeline} :
    (build definitions propositions world).value = .ok p ↔
      (Definitions.build definitions world).value = .ok p.definitions ∧
        (Propositions.build propositions p.definitions world).value = .ok p.propositions := by
  rw [build, Logged.value_bind]
  constructor
  · intro built
    rcases lower : (Definitions.build definitions world).value with e | d
    · rw [lower] at built
      contradiction
    rw [lower, Logged.value_bind] at built
    rcases upper : (Propositions.build propositions d world).value with e | q
    · rw [upper] at built
      contradiction
    rw [upper] at built
    obtain rfl := Except.ok.inj built
    exact ⟨rfl, upper⟩
  · rintro ⟨lower, upper⟩
    rw [lower, Logged.value_bind, upper]
    rfl

end TemporalRewards
