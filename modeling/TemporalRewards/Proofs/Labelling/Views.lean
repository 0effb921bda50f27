import TemporalRewards.Proofs.Labelling.Bisimulation
import TemporalRewards.Proofs.Labelling.FeedForward
import TemporalRewards.Proofs.Labelling.Validity
import TemporalRewards.Proofs.Monitor.LastObservations
import TemporalRewards.Proofs.Syntax.Derivations

/-! The views of one tick. The truth values of the propositions are packed into bits, listed as
entries and read by index and by name, and rewards read them in a scope together with the
definitions. Some look-ups take the first entry of a name and others the last. All of them agree
because no name is used twice, in a table or in both, and because there is room for all values;
calls keep this, whether or not they succeed. -/
namespace TemporalRewards

namespace SortedMap

variable {κ α : Type} [Ord κ] [Std.TransOrd κ] [Std.LawfulEqOrd κ] [BEq κ] [LawfulBEq κ]

/-- Where no key comes twice, the last entry of a key is also the first. -/
theorem get?_ofList {entries : List (κ × α)} (distinct : (entries.map (·.1)).Nodup) (key : κ) :
    (ofList entries).get? key = entries.lookup key := by
  have members (e : κ × α) : e ∈ (ofList entries).entries ↔ e ∈ entries := by
    rw [mem_entries_ofList]
    constructor
    · rintro ⟨earlier, later, rfl, _⟩
      simp
    · intro member
      obtain ⟨earlier, later, rfl⟩ := List.append_of_mem member
      refine ⟨earlier, later, rfl, fun other later same => ?_⟩
      simp only [List.map_append, List.map_cons] at distinct
      have fresh := (List.nodup_cons.mp (List.nodup_append.mp distinct).2.1).1
      exact fresh (same ▸ List.mem_map_of_mem later)
  apply Option.ext
  intro value
  rw [get?, Scope.lookup_eq_some_iff (ofList entries).nodup_keys, members,
    Scope.lookup_eq_some_iff distinct]

end SortedMap

theorem Alphabet.index?_eq_some_iff_of_nodup {a : Alphabet} (distinct : a.names.Nodup)
    {name : String} {i : Nat} : a.index? name = some i ↔ a.name? i = some name := by
  rw [index?_eq_some_iff]
  refine ⟨fun found => found.1, fun found => ⟨found, fun j less again => ?_⟩⟩
  have inside := (List.getElem?_eq_some_iff.mp again).1
  exact Nat.ne_of_lt less ((List.getElem?_inj inside distinct).mp (again.trans found.symm))

/-- What can be seen of a labelling at a tick: the names, the entries and the bits of the
propositions, their values by name in a look-up and in a map, the values of definitions, and the
scope in which rewards read. -/
structure Views where
  alphabet : Alphabet
  entries : List Entry
  observation : Observation
  get? : String → Option Bool
  byName : SortedMap String Bool
  definition? : String → Option Value
  scope : Scope

def Pipeline.views (p : Pipeline) (world : World) : Views :=
  ⟨p.alphabet, p.propositions.entries, p.observation, p.propositions.get?, p.propositions.byName,
    p.definitions.get?, p.scope world⟩

def ClockLabelling.views (c : ClockLabelling) (world : World) : Views :=
  ⟨c.alphabet, c.entries, c.observation, c.get?, c.byName, fun _ => none, c.scope world⟩

namespace Views

/-- All views are of the same values, for definitions and propositions with these names. -/
structure Coherent (v : Views) (definitions propositions : List String) : Prop where
  names : v.alphabet.names = propositions
  count : v.entries.length = propositions.length
  /-- The name, the entry and the bit of an index belong together, however they are looked up. -/
  each : ∀ i name, v.alphabet.name? i = some name →
    v.alphabet.index? name = some i ∧
      v.entries[i]? = some (name, .bool (v.observation.get i)) ∧
      v.get? name = some (v.observation.get i) ∧ v.byName.get? name = some (v.observation.get i)
  others : ∀ name, name ∉ propositions →
    v.alphabet.index? name = none ∧ v.get? name = none ∧ v.byName.get? name = none
  beyond : ∀ i, propositions.length ≤ i → v.observation.get i = false
  scope : ∀ name, v.scope.get? name = v.scope.entries.get? name
  proposition : ∀ name ∈ propositions, ∃ value,
    v.get? name = some value ∧ v.scope.get? name = some (.bool value)
  definition : ∀ name ∈ definitions, ∃ value,
    v.definition? name = some value ∧ v.scope.get? name = some value
  unknown : ∀ name, name ∉ definitions → name ∉ propositions → v.scope.get? name = none

/-- The views of values over the values of definitions. -/
def ofValues (world : World) (definitions : List Entry) (values : List (String × Bool)) : Views where
  alphabet := ⟨values.map (·.1)⟩
  entries := entriesOf .bool values
  observation := Observation.ofList (values.map (·.2))
  get? name := (Alphabet.index? ⟨values.map (·.1)⟩ name).map
    (Observation.ofList (values.map (·.2))).get
  byName := SortedMap.ofList values
  definition? name := definitions.lookup name
  scope := ⟨world, definitions, entriesOf .bool values⟩

variable {world : World} {definitions : List Entry} {values : List (String × Bool)}

theorem get_ofValues (room : values.length ≤ Observation.capacity) (i : Nat) :
    (ofValues world definitions values).observation.get i =
      ((values[i]?).map (·.2)).getD false := by
  have short : (values.map (·.2)).length ≤ Observation.capacity := by simpa using room
  simp only [ofValues, Observation.get_ofList, List.take_of_length_le short, List.getElem?_map]

section

variable (distinct : (values.map (·.1) ++ definitions.map (·.1)).Nodup)
include distinct

/-- Both layers of the scope can be read. -/
theorem scope_ofValues {name : String} {value : Value} :
    (ofValues world definitions values).scope.get? name = some value ↔
      (name, value) ∈ entriesOf .bool values ++ definitions := by
  have layered : ((entriesOf .bool values ++ definitions).map (·.1)).Nodup := by
    rwa [List.map_append, Table.names_entriesOf]
  exact (congrArg (· = some value) (Scope.get?_eq_lookup ..)).to_iff.trans
    (Scope.lookup_eq_some_iff layered)

theorem entries_ofValues {name : String} {value : Value} :
    (ofValues world definitions values).scope.entries.get? name = some value ↔
      (name, value) ∈ definitions ++ entriesOf .bool values := by
  have layered : ((definitions ++ entriesOf .bool values).map (·.1)).Nodup := by
    rw [List.map_append, Table.names_entriesOf]
    exact List.perm_append_comm.nodup_iff.mp distinct
  exact (congrArg (· = some value) (SortedMap.get?_ofList layered name)).to_iff.trans
    (Scope.lookup_eq_some_iff layered)

theorem each_ofValues (world : World) (room : values.length ≤ Observation.capacity) {i : Nat}
    {name : String} {value : Bool} (found : values[i]? = some (name, value)) :
    let v := ofValues world definitions values
    v.alphabet.index? name = some i ∧ v.entries[i]? = some (name, .bool value) ∧
      v.observation.get i = value ∧ v.get? name = some value ∧ v.byName.get? name = some value := by
  have labels := (List.nodup_append.mp distinct).1
  have index : Alphabet.index? ⟨values.map (·.1)⟩ name = some i := by
    apply (Alphabet.index?_eq_some_iff_of_nodup labels).mpr
    simp [Alphabet.name?, found]
  have bit : (ofValues world definitions values).observation.get i = value := by
    simp [get_ofValues room, found]
  refine ⟨index, ?_, bit, ?_, ?_⟩
  · simp [ofValues, entriesOf, found]
  · exact (congrArg (Option.map _) index).trans (congrArg some bit)
  · exact (SortedMap.get?_ofList labels name).trans
      ((Scope.lookup_eq_some_iff labels).mpr (List.mem_of_getElem? found))

theorem coherent_ofValues (room : values.length ≤ Observation.capacity) :
    (ofValues world definitions values).Coherent (definitions.map (·.1)) (values.map (·.1)) where
  names := rfl
  count := by simp [ofValues, entriesOf]
  each i name found := by
    obtain ⟨⟨_, value⟩, here, rfl⟩ : ∃ v, values[i]? = some v ∧ v.1 = name := by
      simpa [ofValues, Alphabet.name?] using found
    obtain ⟨index, entry, bit, look⟩ := each_ofValues distinct world room here
    rw [bit]
    exact ⟨index, entry, look⟩
  others name absent := by
    have labels := (List.nodup_append.mp distinct).1
    have index : Alphabet.index? ⟨values.map (·.1)⟩ name = none := by
      simp only [Alphabet.index?, List.findIdx?_eq_none_iff, beq_eq_false_iff_ne]
      exact fun other member => ne_of_mem_of_not_mem member absent
    exact ⟨index, congrArg (Option.map _) index,
      (SortedMap.get?_ofList labels name).trans (Scope.lookup_of_not_mem absent)⟩
  beyond i past := by
    have none : values[i]? = none := by simpa using past
    simp [get_ofValues room, none]
  scope name := by
    apply Option.ext
    intro value
    rw [scope_ofValues distinct, entries_ofValues distinct, List.mem_append, List.mem_append, or_comm]
  proposition _ named := by
    obtain ⟨⟨name, value⟩, member, rfl⟩ := List.mem_map.mp named
    obtain ⟨i, found⟩ := List.getElem?_of_mem member
    obtain ⟨_, _, _, look, _⟩ := each_ofValues distinct world room found
    refine ⟨value, look, (scope_ofValues distinct).mpr (List.mem_append_left _ ?_)⟩
    exact List.mem_map_of_mem member
  definition _ named := by
    obtain ⟨⟨name, value⟩, member, rfl⟩ := List.mem_map.mp named
    refine ⟨value, ?_, (scope_ofValues distinct).mpr (List.mem_append_right _ member)⟩
    exact (Scope.lookup_eq_some_iff (List.nodup_append.mp distinct).2.1).mpr member
  unknown name undefined unlabelled := by
    apply Option.eq_none_iff_forall_ne_some.mpr
    intro value found
    rcases List.mem_append.mp ((scope_ofValues distinct).mp found) with member | member
    · apply unlabelled
      rw [← Table.names_entriesOf .bool]
      exact List.mem_map_of_mem member
    · exact undefined (List.mem_map_of_mem member)

end

end Views

/-- What every call keeps is kept by a run. -/
theorem Evaluator.run_keeps {ε : Type} [Evaluator ε] {Kept : ε → Prop}
    (call : ∀ e c world, Kept e → Kept (Evaluator.call e c world).value.2) {e : ε} (start : Kept e)
    (calls : List (Pipeline.Call × World)) : Kept (Evaluator.run e calls).2 := by
  induction calls generalizing e with
  | nil => exact start
  | cons c rest ih => exact ih (call e c.1 c.2 start)

namespace Pipeline

variable {p first after : Pipeline} {c : Call} {world start : World}
  {result : Except EvalError Unit} {definitions propositions : List String}

/-- Rules and current values of both tables go by the same names. -/
structure Named (p : Pipeline) (definitions propositions : List String) : Prop where
  lower : p.definitions.names = definitions
  upper : p.propositions.table.names = propositions
  entries : p.definitions.entries.map (·.1) = definitions
  values : p.propositions.values.map (·.1) = propositions

/-- A table that is evaluated has entries of its names, and one that is not keeps its own. -/
theorem Named.outcome (named : p.Named definitions propositions)
    (outcome : Outcome p c world result after) : after.Named definitions propositions := by
  obtain ⟨lower, upper⟩ := outcome.tables
  refine ⟨?_, ?_, ?_, ?_⟩
  · rw [← named.lower, Definitions.names, lower, Definitions.names]
  · rw [upper, named.upper]
  · cases outcome with
    | undefined _ => exact named.entries
    | apart defined _ | unlabelled defined _ _ | labelled defined _ _ =>
      exact (Table.evaluate_eq_ok_iff.mp defined).names.trans named.lower
  · cases outcome with
    | undefined _ | apart _ _ | unlabelled _ _ _ => exact named.values
    | labelled _ _ labels => exact (Table.evaluate_eq_ok_iff.mp labels).names.trans named.upper

theorem named_of_build {rules : List (String × Rule Value)} {labels : List (String × Rule Bool)}
    (built : (build rules labels start).value = .ok first) :
    first.Named (rules.map (·.1)) (labels.map (·.1)) := by
  obtain ⟨lower, upper⟩ := build_eq_ok_iff.mp built
  obtain ⟨defined, _, _, entries⟩ := Definitions.build_eq_ok_iff.mp lower
  obtain ⟨labelled, _, _, _, _, _, values⟩ := Propositions.build_eq_ok_iff.mp upper
  obtain ⟨_, rfl⟩ := Table.build_eq_ok_iff.mp defined
  obtain ⟨_, rfl⟩ := Table.build_eq_ok_iff.mp labelled
  exact ⟨rfl, rfl, (Table.evaluate_eq_ok_iff.mp entries).names,
    (Table.evaluate_eq_ok_iff.mp values).names⟩

theorem Named.run (named : p.Named definitions propositions)
    (calls : List (Pipeline.Call × World)) :
    (Evaluator.run p calls).2.Named definitions propositions := by
  have keeps (e : Pipeline) (c : Call) (world : World) (kept : e.Named definitions propositions) :
      (Evaluator.call e c world).value.2.Named definitions propositions := by
    have same : Evaluator.call e c world = e.call c world := by cases c <;> rfl
    rw [same]
    exact kept.outcome (call_outcome (Prod.eta _).symm)
  exact Evaluator.run_keeps keeps named calls

/-- The packed values, taken apart again and given their names, are the values. -/
theorem Named.views_eq (named : p.Named definitions propositions)
    (room : propositions.length ≤ Observation.capacity) (world : World) :
    p.views world = .ofValues world p.definitions.entries p.propositions.values := by
  have alphabet : p.propositions.table.names = p.propositions.values.map (·.1) :=
    named.upper.trans named.values.symm
  have short : (p.propositions.values.map (·.2)).length ≤ Observation.capacity := by
    simpa [← named.values] using room
  have read := Observation.toList_ofList short
  have byName : p.propositions.byName = .ofList p.propositions.values := by
    simp only [List.length_map] at read
    simp [Propositions.byName, Propositions.alphabet, Alphabet.size, Propositions.observation,
      alphabet, read, List.zip_map']
  have get? : p.propositions.get? = (Views.ofValues world p.definitions.entries
      p.propositions.values).get? := by
    funext name
    simp [Propositions.get?, Propositions.alphabet, Propositions.observation, Views.ofValues, alphabet]
  simp only [views, Pipeline.alphabet, Propositions.alphabet, alphabet, byName, get?]
  rfl

end Pipeline

namespace ClockLabelling

variable {c : ClockLabelling} {rules : List (String × (Tick → Bool))} {world : World}

/-- A clock has been sampled at some tick. -/
def Sampled (rules : List (String × (Tick → Bool))) (c : ClockLabelling) : Prop :=
  ∃ (blank : ClockLabelling) (tick : Tick), blank.rules = rules ∧ c = blank.evaluateAt tick

theorem Sampled.run (sampled : Sampled rules c) (calls : List (Pipeline.Call × World)) :
    Sampled rules (Evaluator.run c calls).2 := by
  have keeps (e : ClockLabelling) (k : Pipeline.Call) (world : World) (kept : Sampled rules e) :
      Sampled rules (Evaluator.call e k world).value.2 := by
    obtain ⟨blank, tick, rfl, rfl⟩ := kept
    rw [value_call]
    exact ⟨_, _, rfl, rfl⟩
  exact Evaluator.run_keeps keeps sampled calls

theorem Sampled.views_eq (sampled : Sampled rules c) (room : rules.length ≤ Observation.capacity)
    (world : World) : ∃ tick,
      c.views world = .ofValues { world with objects := .empty } [] (valuesAt rules tick) := by
  obtain ⟨blank, tick, rfl, rfl⟩ := sampled
  refine ⟨tick, ?_⟩
  have alphabet : (blank.evaluateAt tick).alphabet = ⟨(valuesAt blank.rules tick).map (·.1)⟩ := by
    simp [valuesAt, ClockLabelling.alphabet, evaluateAt]
  have get? : (blank.evaluateAt tick).get? =
      (Views.ofValues world [] (valuesAt blank.rules tick)).get? := by
    funext name
    rw [ClockLabelling.get?, alphabet, observation_evaluateAt]
    rfl
  rw [views, scope, byName, values_evaluateAt room, entries_evaluateAt room, get?, alphabet,
    observation_evaluateAt]
  rfl

theorem nodup_of_build (built : ClockLabelling.build rules = .ok c) :
    (rules.map (·.1)).Nodup := by
  unfold ClockLabelling.build at built
  rw [enroll_empty] at built
  cases repeated : firstRepeated [] (rules.map (·.1)) with
  | some name =>
    rw [repeated] at built
    contradiction
  | none => exact (firstRepeated_eq_none_iff.mp repeated).1

end ClockLabelling

/-- Whatever calls were made, all views of a labelling are of the same values. -/
theorem views_coherent (definitions : List (String × Rule Value))
    (propositions : List (String × Rule Bool)) (rules : List (String × (Tick → Bool)))
    (start : World) :
    (∀ p, (Pipeline.build definitions propositions start).value = .ok p → ∀ calls world,
        ((Evaluator.run p calls).2.views world).Coherent (definitions.map (·.1))
          (propositions.map (·.1))) ∧
      ∀ c, ClockLabelling.build rules = .ok c → ∀ calls world,
        ((Evaluator.run c calls).2.views world).Coherent [] (rules.map (·.1)) := by
  constructor
  · intro p built calls world
    obtain ⟨distinct, room, _⟩ := Pipeline.valid_of_build built
    rw [List.append_assoc] at distinct
    have layered := (List.nodup_append.mp distinct).2.1
    have named := (Pipeline.named_of_build built).run calls
    have short : (propositions.map (·.1)).length ≤ Observation.capacity := by simpa using room
    rw [named.views_eq short]
    rw [← named.entries, ← named.values] at layered ⊢
    apply Views.coherent_ofValues
    · exact List.perm_append_comm.nodup_iff.mp layered
    · simpa [← named.values] using short
  · intro c built calls world
    obtain ⟨room, blank, same, rfl⟩ := ClockLabelling.build_ok built
    have sampled : ClockLabelling.Sampled rules (blank.evaluateAt 0) := ⟨_, _, same, rfl⟩
    obtain ⟨tick, views⟩ := (sampled.run calls).views_eq room world
    have names : (ClockLabelling.valuesAt rules tick).map (·.1) = rules.map (·.1) := by
      simp [ClockLabelling.valuesAt]
    rw [views, ← names]
    apply Views.coherent_ofValues
    · simpa [names] using ClockLabelling.nodup_of_build built
    · simpa [ClockLabelling.valuesAt] using room

/-- The second step fails in the proposition, past the definition. -/
def halfway : List (Pipeline.Call × World) :=
  [(.step, World.empty), (.step, Pipeline.claimed)]

/-- After it the new value of `even` is seen beside the old value of `odd`, in every view. -/
theorem views_coherent_oddity : ∃ p c,
    (Pipeline.build Pipeline.evenTick Pipeline.oddWhileFree World.empty).value = .ok p ∧
      ClockLabelling.build ClockLabelling.early = .ok c ∧
      (Evaluator.run p halfway).1 = [.ok (), .error (.rule "odd" 2 (.custom "claimed"))] ∧
      ((Evaluator.run p halfway).2.views World.empty).Coherent ["even"] ["odd"] ∧
      ((Evaluator.run p halfway).2.views World.empty).scope.entries.get? "even" =
        some (.bool true) ∧
      ((Evaluator.run p halfway).2.views World.empty).scope.entries.get? "odd" =
        some (.bool true) ∧
      ((Evaluator.run c ClockLabelling.detour).2.views World.empty).Coherent [] ["early", "odd"] ∧
      ((Evaluator.run c ClockLabelling.detour).2.views World.empty).byName.get? "odd" =
        some false := by
  have built : (Pipeline.build Pipeline.evenTick Pipeline.oddWhileFree World.empty).value =
      .ok Pipeline.oddity := rfl
  have sampled : ClockLabelling.build ClockLabelling.early =
      .ok (.reset ⟨ClockLabelling.early, 0, .empty, []⟩) := rfl
  obtain ⟨labelled, clocked⟩ := views_coherent Pipeline.evenTick Pipeline.oddWhileFree
    ClockLabelling.early World.empty
  have tables := labelled _ built halfway World.empty
  have clock := clocked _ sampled ClockLabelling.detour World.empty
  obtain ⟨_, _, _, odd⟩ := clock.each 1 "odd" rfl
  exact ⟨_, _, built, sampled, rfl, tables, (tables.scope "even").symm.trans rfl,
    (tables.scope "odd").symm.trans rfl, clock, odd.trans rfl⟩

end TemporalRewards
