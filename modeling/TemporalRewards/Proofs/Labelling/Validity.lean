import TemporalRewards.Proofs.Labelling.Failures

/-! Valid configurations. Whether a pipeline can be built is a matter of names, of room and of
the first evaluation, in whatever order these are looked at. What is built is where a reset
would lead, so that nothing of the construction is lost by going on and coming back. -/
namespace TemporalRewards

theorem SortedMap.nodup_keys {κ α : Type} [Ord κ] [Std.ReflOrd κ] (m : SortedMap κ α) :
    m.keys.Nodup := by
  refine List.pairwise_map.mpr (m.increasing.imp ?_)
  intro a b less same
  have equal : compare b.1 b.1 = .eq := Std.ReflCmp.compare_self
  rw [same, equal] at less
  contradiction

/-- Names that are distinct in each of three lists, and no two of these have one in common. -/
theorem nodup_append_iff {first second third : List String} :
    (first ++ second ++ third).Nodup ↔ first.Nodup ∧ second.Nodup ∧ third.Nodup ∧
      (∀ name ∈ first, name ∉ second) ∧ (∀ name ∈ first, name ∉ third) ∧
      ∀ name ∈ second, name ∉ third := by
  have apart_iff (xs ys : List String) :
      (∀ x ∈ xs, ∀ y ∈ ys, x ≠ y) ↔ ∀ name ∈ xs, name ∉ ys :=
    ⟨fun apart name left right => apart name left name right rfl,
      fun apart x left _ right => (ne_of_mem_of_not_mem right (apart x left)).symm⟩
  simp only [List.nodup_append, apart_iff, List.forall_mem_append]
  constructor
  · rintro ⟨⟨one, two, apart⟩, three, others, last⟩
    exact ⟨one, two, three, apart, others, last⟩
  · rintro ⟨one, two, three, apart, others, last⟩
    exact ⟨⟨one, two, apart⟩, three, others, last⟩

namespace Pipeline

variable {definitions : List (String × Rule Value)} {propositions : List (String × Rule Bool)}
  {world : World} {p q : Pipeline}

/-- What a pipeline can be built from in a world. No name is used twice, be it of an object, of
a definition or of a proposition, an observation has room for the propositions, and all rules
give values at tick zero, those of the propositions over those of the definitions. -/
structure Valid (definitions : List (String × Rule Value))
    (propositions : List (String × Rule Bool)) (world : World) : Prop where
  distinct :
    (world.objects.keys ++ definitions.map (·.1) ++ propositions.map (·.1)).Nodup
  room : propositions.length ≤ Observation.capacity
  evaluates : ∃ entries values, Sequential id world [] 0 [] definitions entries ∧
    Sequential Value.bool world entries 0 [] propositions values

theorem valid_of_build (built : (build definitions propositions world).value = .ok p) :
    Valid definitions propositions world := by
  obtain ⟨lower, upper⟩ := build_eq_ok_iff.mp built
  obtain ⟨defined, apart, _, entries⟩ := Definitions.build_eq_ok_iff.mp lower
  obtain ⟨labelled, room, others, last, _, _, values⟩ := Propositions.build_eq_ok_iff.mp upper
  obtain ⟨_, rfl⟩ := Table.build_eq_ok_iff.mp defined
  obtain ⟨_, rfl⟩ := Table.build_eq_ok_iff.mp labelled
  exact
    { distinct := nodup_append_iff.mpr ⟨world.objects.nodup_keys, p.definitions.table.nodup,
        p.propositions.table.nodup, apart, others, last⟩
      room := room
      evaluates := ⟨_, _, Table.evaluate_eq_ok_iff.mp entries, Table.evaluate_eq_ok_iff.mp values⟩ }

theorem Valid.build (valid : Valid definitions propositions world) :
    ∃ p, (build definitions propositions world).value = .ok p := by
  obtain ⟨distinct, room, entries, values, defined, labelled⟩ := valid
  obtain ⟨_, two, three, apart, others, last⟩ := nodup_append_iff.mp distinct
  refine ⟨⟨⟨⟨.definitions, definitions, two⟩, 0, entries⟩,
    ⟨⟨.propositions, propositions, three⟩, 0, values⟩⟩, build_eq_ok_iff.mpr ⟨?_, ?_⟩⟩
  · apply Definitions.build_eq_ok_iff.mpr
    exact ⟨Table.build_eq_ok_iff.mpr ⟨rfl, rfl⟩, apart, rfl, Table.evaluate_eq_ok_iff.mpr defined⟩
  · apply Propositions.build_eq_ok_iff.mpr
    exact ⟨Table.build_eq_ok_iff.mpr ⟨rfl, rfl⟩, room, others, last, rfl, rfl,
      Table.evaluate_eq_ok_iff.mpr labelled⟩

/-- A pipeline at tick zero whose tables were evaluated there is where a reset leads. -/
theorem reset_of_build (built : (Pipeline.build definitions propositions world).value = .ok p) :
    (p.reset world).value = (.ok (), p) := by
  obtain ⟨lower, upper⟩ := build_eq_ok_iff.mp built
  obtain ⟨_, _, level, entries⟩ := Definitions.build_eq_ok_iff.mp lower
  obtain ⟨_, _, _, _, _, zero, values⟩ := Propositions.build_eq_ok_iff.mp upper
  obtain ⟨⟨lowerTable, _, _⟩, ⟨upperTable, _, _⟩⟩ := p
  obtain rfl : _ = 0 := level
  obtain rfl : _ = 0 := zero
  change (call _ .reset world).value = _
  simp only [value_call, Call.target, Definitions.value_evaluateAt, entries,
    Propositions.value_evaluateAt, if_true, values]

/-- A pipeline can be built just from what is valid in the world. It has its rules evaluated at
tick zero, and a reset in that world leads back to it from whatever becomes of it by calls,
failed or not. -/
theorem build_iff_valid (definitions : List (String × Rule Value))
    (propositions : List (String × Rule Bool)) (world : World) :
    ((∃ p, (Pipeline.build definitions propositions world).value = .ok p) ↔
        Valid definitions propositions world) ∧
      ∀ p, (Pipeline.build definitions propositions world).value = .ok p →
        p.Evaluated definitions propositions world 0 ∧
          ∀ q, p.Reached q → (q.reset world).value = (.ok (), p) := by
  refine ⟨⟨fun ⟨_, built⟩ => valid_of_build built, Valid.build⟩, ?_⟩
  intro p built
  obtain ⟨_, _, _, evaluated⟩ := build_ok built
  refine ⟨evaluated, ?_⟩
  intro q reached
  have again := reset_of_build built
  obtain ⟨_, same⟩ := reset_congr reached.tables.1 reached.tables.2 world
  rw [same (congrArg Prod.fst again), again]

/-- The rules of `oddity` are valid as long as the priority is free. -/
theorem build_iff_valid_oddity : Valid evenTick oddWhileFree World.empty ∧
    ¬ Valid evenTick oddWhileFree claimed ∧ Reached oddity lagging ∧
    (lagging.reset World.empty).value = (.ok (), oddity) := by
  have built : (Pipeline.build evenTick oddWhileFree World.empty).value = .ok oddity := rfl
  obtain ⟨free, onward⟩ := build_iff_valid evenTick oddWhileFree World.empty
  obtain ⟨taken, _⟩ := build_iff_valid evenTick oddWhileFree claimed
  have reached : Reached oddity lagging :=
    (((Reached.built.call .step World.empty).call .reset claimed).call .step World.empty)
  refine ⟨free.mp ⟨_, built⟩, ?_, reached, (onward oddity built).2 lagging reached⟩
  intro valid
  obtain ⟨p, refused⟩ := taken.mpr valid
  contradiction

end Pipeline

end TemporalRewards
