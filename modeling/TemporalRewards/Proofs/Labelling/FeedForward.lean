import TemporalRewards.Proofs.Labelling.Calls

/-! Tables feed forward. A table can be cut anywhere: what its front gives does not depend on
what comes behind, and the back is evaluated over it. So a table fails with its first rule that
fails, and no rule can read a name that is declared later, in its own table or in one that
builds on it. -/
namespace TemporalRewards

namespace Scope

/-- The entries can be read, each by its name, and the hidden names are unknown. -/
structure Exposes (scope : Scope) (entries : List Entry) (hidden : List String) : Prop where
  shown : ∀ entry ∈ entries, scope.value entry.1 = .ok entry.2
  hidden : ∀ name ∈ hidden, scope.value name = .error (.unknownName name)

variable {world : World} {entries inner outer : List Entry} {hidden : List String}

section

variable {κ α : Type} [BEq κ] [LawfulBEq κ] {entries : List (κ × α)}

theorem lookup_of_mem {entry : κ × α} (distinct : (entries.map (·.1)).Nodup)
    (member : entry ∈ entries) : entries.lookup entry.1 = some entry.2 := by
  induction entries with
  | nil => contradiction
  | cons first rest ih =>
    obtain ⟨name, value⟩ := first
    obtain ⟨fresh, distinct⟩ := List.nodup_cons.mp distinct
    rcases List.mem_cons.mp member with rfl | member
    · exact List.lookup_cons_self
    · have apart : (entry.1 == name) = false :=
        beq_eq_false_iff_ne.mpr (ne_of_mem_of_not_mem (List.mem_map_of_mem member) fresh)
      simp only [List.lookup_cons, apart, ih distinct member]

theorem lookup_of_not_mem {key : κ} (absent : key ∉ entries.map (·.1)) :
    entries.lookup key = none := by
  apply List.lookup_eq_none_iff.mpr
  intro entry member
  exact bne_iff_ne.mpr (ne_of_mem_of_not_mem (List.mem_map_of_mem member) absent).symm

/-- Where no key comes twice, an entry is looked up just when it is there. -/
theorem lookup_eq_some_iff (distinct : (entries.map (·.1)).Nodup) {key : κ} {value : α} :
    entries.lookup key = some value ↔ (key, value) ∈ entries := by
  refine ⟨fun found => ?_, lookup_of_mem distinct⟩
  obtain ⟨earlier, later, rfl, _⟩ := List.lookup_eq_some_iff.mp found
  exact List.mem_append_right earlier List.mem_cons_self

end

/-- An inner entry hides an outer one. -/
theorem get?_eq_lookup (world : World) (outer inner : List Entry) (name : String) :
    Scope.get? ⟨world, outer, inner⟩ name = (inner ++ outer).lookup name :=
  List.lookup_append.symm

/-- Both layers of a scope can be read if no name is used twice in them. -/
theorem exposes_of_distinct (distinct : ((inner ++ outer).map (·.1)).Nodup)
    (absent : ∀ name ∈ hidden, name ∉ (inner ++ outer).map (·.1)) :
    Exposes ⟨world, outer, inner⟩ (inner ++ outer) hidden where
  shown entry member := by
    simp only [value, get?_eq_lookup, lookup_of_mem distinct member]
  hidden name member := by
    simp only [value, get?_eq_lookup, lookup_of_not_mem (absent name member)]

end Scope

namespace Table

variable {α : Type} {asValue : α → Value} {world : World} {outer inner : List Entry} {tick : Tick}
  {t front : Table α} {rules back : List (String × Rule α)} {values : List (String × α)}

theorem names_entriesOf (asValue : α → Value) (values : List (String × α)) :
    (entriesOf asValue values).map (·.1) = values.map (·.1) :=
  List.map_map

theorem names_of_evaluate {before : List (String × α)}
    (evaluated : (front.evaluate asValue world outer tick).value = .ok before) :
    (entriesOf asValue before).map (·.1) = front.names :=
  (names_entriesOf asValue before).trans (evaluate_eq_ok_iff.mp evaluated).names

/-- No name of the front is one of the back. -/
theorem not_mem_front (cut : t.rules = front.rules ++ back) :
    ∀ name ∈ back.map (·.1), name ∉ front.names := by
  have distinct := t.nodup
  rw [cut, List.map_append, List.nodup_append] at distinct
  intro name behind ahead
  exact distinct.2.2 name ahead name behind rfl

end Table

namespace Pipeline

variable {definitions : List (String × Rule Value)} {propositions : List (String × Rule Bool)}
  {start : World} {first p : Pipeline}

/-- What the rules of a pipeline can read at a tick. A definition reads the definitions in front
of it, and a proposition reads all definitions of the tick and the propositions in front of it.
Every other name of the pipeline is unknown to them. -/
structure Layered (p : Pipeline) (world : World) (tick : Tick) : Prop where
  definition : ∀ (front : Table Value) back before,
    p.definitions.table.rules = front.rules ++ back →
    (front.evaluate id world [] tick).value = .ok before →
    Scope.Exposes ⟨world, [], before⟩ before (back.map (·.1) ++ p.alphabet.names)
  proposition : ∀ entries, (p.definitions.table.evaluate id world [] tick).value = .ok entries →
    ∀ (front : Table Bool) back before, p.propositions.table.rules = front.rules ++ back →
    (front.evaluate Value.bool world entries tick).value = .ok before →
    Scope.Exposes ⟨world, entries, entriesOf .bool before⟩ (entriesOf .bool before ++ entries)
      (back.map (·.1))

theorem layered (built : (build definitions propositions start).value = .ok first)
    (reached : first.Reached p) (world : World) (tick : Tick) : p.Layered world tick := by
  obtain ⟨_, upper⟩ := build_eq_ok_iff.mp built
  obtain ⟨_, _, _, free, _⟩ := Propositions.build_eq_ok_iff.mp upper
  have apart : ∀ name ∈ p.definitions.table.names, name ∉ p.propositions.table.names := by
    rw [reached.tables.1, reached.tables.2]
    exact free
  have values (entries : List Entry) : entriesOf id entries = entries := List.map_id _
  constructor
  · intro front back before cut evaluated
    have names : before.map (·.1) = front.names := by
      rw [← Table.names_of_evaluate evaluated, values]
    have hidden : ∀ name ∈ back.map (·.1) ++ p.alphabet.names, name ∉ front.names := by
      refine List.forall_mem_append.mpr ⟨Table.not_mem_front cut, fun name upper ahead => ?_⟩
      refine apart name ?_ upper
      rw [Table.names, cut, List.map_append]
      exact List.mem_append_left _ ahead
    have exposes : Scope.Exposes ⟨world, [], before⟩ (before ++ [])
        (back.map (·.1) ++ p.alphabet.names) := by
      apply Scope.exposes_of_distinct
      · rw [List.append_nil, names]
        exact front.nodup
      · rw [List.append_nil, names]
        exact hidden
    rwa [List.append_nil] at exposes
  · intro entries defined front back before cut evaluated
    have lowerNames : entries.map (·.1) = p.definitions.table.names := by
      rw [← Table.names_of_evaluate defined, values]
    have upperNames := Table.names_of_evaluate evaluated
    have behind : ∀ name ∈ front.names ++ back.map (·.1), name ∉ p.definitions.table.names := by
      intro name upper lower
      refine apart name lower ?_
      rw [Table.names, cut, List.map_append]
      exact upper
    refine Scope.exposes_of_distinct ?_ ?_
    · rw [List.map_append, lowerNames, upperNames]
      refine List.nodup_append.mpr ⟨front.nodup, p.definitions.table.nodup, ?_⟩
      intro name ahead other lower
      exact (ne_of_mem_of_not_mem lower (behind name (List.mem_append_left _ ahead))).symm
    · rw [List.map_append, lowerNames, upperNames]
      intro name later
      rw [List.mem_append, not_or]
      exact ⟨Table.not_mem_front cut name later, behind name (List.mem_append_right _ later)⟩

end Pipeline

end TemporalRewards
