import TemporalRewards.Proofs.Formula.Closure

/-! The residuals of an until. Every tick puts a layer around what was left before:
a new copy of each side. Where one side is settled by a bounded number of
observations, the copies of it turn into constants, layer by layer, and only a
bounded number of layers is ever there. -/
namespace TemporalRewards

namespace Formula

/-- What at most `i` layers around `u` can look like: a junction of one kind with
something over `S`, around a junction of the other kind with a guard that `h - i`
observations settle. -/
def layers (kind : Junction) (S : Set Formula) (u : Formula) (h : Nat) : Nat → Set Formula
  | 0 => junctionsOver kind S ∪ (fun s => junctionOf kind [s, u]) '' junctionsOver kind S
  | i + 1 => Set.image2 (fun s body => junctionOf kind [s, body]) (junctionsOver kind S)
      (Set.image2 (fun guard r => junctionOf kind.other [guard, r])
        {guard ∈ S | SettledBy (h - (i + 1)) guard} (layers kind S u h i))

section Layers

variable {kind : Junction} {S : Set Formula} {u r s : Formula} {h i : Nat}

theorem mem_layers_zero : r ∈ layers kind S u h 0 ↔ r ∈ junctionsOver kind S ∨
    ∃ s ∈ junctionsOver kind S, r = junctionOf kind [s, u] := by
  simp only [layers, Set.mem_union, Set.mem_image, eq_comm]

theorem mem_layers_succ : r ∈ layers kind S u h (i + 1) ↔
    ∃ s ∈ junctionsOver kind S, ∃ guard ∈ S, SettledBy (h - (i + 1)) guard ∧
      ∃ q ∈ layers kind S u h i, r = junctionOf kind [s, junctionOf kind.other [guard, q]] := by
  rw [layers]
  constructor
  · rintro ⟨s, built, _, ⟨guard, ⟨inside, settled⟩, q, below, rfl⟩, rfl⟩
    exact ⟨s, built, guard, inside, settled, q, below, rfl⟩
  · rintro ⟨s, built, guard, inside, settled, q, below, rfl⟩
    exact ⟨s, built, _, ⟨guard, ⟨inside, settled⟩, q, below, rfl⟩, rfl⟩

theorem finite_layers (finite : S.Finite) (i : Nat) : (layers kind S u h i).Finite := by
  induction i with
  | zero => exact (finite_junctionsOver finite).union ((finite_junctionsOver finite).image _)
  | succ i ih =>
    exact (finite_junctionsOver finite).image2 _ ((finite.subset (Set.sep_subset S _)).image2 _ ih)

theorem normal_layers (closed : Closed S) (normal : Normal u) (member : r ∈ layers kind S u h i) :
    Normal r := by
  induction i generalizing r with
  | zero =>
    rcases mem_layers_zero.mp member with built | ⟨s, built, rfl⟩
    · exact normal_of_mem_junctionsOver closed.normal built
    · exact normal_junctionOf kind
        (forall_mem_pair.mpr ⟨normal_of_mem_junctionsOver closed.normal built, normal⟩)
  | succ i ih =>
    obtain ⟨s, built, guard, inside, _, r, below, rfl⟩ := mem_layers_succ.mp member
    have body := normal_junctionOf kind.other
      (forall_mem_pair.mpr ⟨closed.normal guard inside, ih below⟩)
    exact normal_junctionOf kind
      (forall_mem_pair.mpr ⟨normal_of_mem_junctionsOver closed.normal built, body⟩)

theorem negatable_layers (complete : Complete S) (normal : Normal u) (plain : negationOf u = neg u)
    (member : r ∈ layers kind S u h i) : Negatable S r := by
  have outer : ∀ s ∈ junctionsOver kind S, Normal s ∧ Negatable S s := by
    intro s built
    constructor
    · exact normal_of_mem_junctionsOver complete.normal built
    · exact negatable_of_mem_junctionsOver complete.constant complete.normal
        (fun _ => complete.negatable) built
  induction i generalizing r with
  | zero =>
    rcases mem_layers_zero.mp member with built | ⟨s, built, rfl⟩
    · exact (outer r built).2
    · exact negatable_junctionOf kind complete.constant
        (forall_mem_pair.mpr ⟨(outer s built).1, normal⟩)
        (forall_mem_pair.mpr ⟨(outer s built).2, Or.inr plain⟩)
  | succ i ih =>
    obtain ⟨s, built, guard, inside, _, r, below, rfl⟩ := mem_layers_succ.mp member
    have parts : ∀ χ ∈ [guard, r], Normal χ :=
      forall_mem_pair.mpr
        ⟨complete.normal guard inside, normal_layers complete.toClosed normal below⟩
    have body := negatable_junctionOf kind.other complete.constant parts
      (forall_mem_pair.mpr ⟨complete.negatable inside, ih below⟩)
    exact negatable_junctionOf kind complete.constant
      (forall_mem_pair.mpr ⟨(outer s built).1, normal_junctionOf kind.other parts⟩)
      (forall_mem_pair.mpr ⟨(outer s built).2, body⟩)

/-- Two junctions of the outer kind are one. -/
theorem junctionOf_pair_junctionOf {φ ψ χ : Formula} (normalφ : Normal φ) (normalψ : Normal ψ)
    (normalχ : Normal χ) :
    junctionOf kind [φ, junctionOf kind [ψ, χ]] = junctionOf kind [junctionOf kind [φ, ψ], χ] := by
  rw [junctionOf_junctionOf kind (forall_mem_pair.mpr ⟨normalφ, normalψ⟩)]
  calc junctionOf kind [φ, junctionOf kind [ψ, χ]]
      = junctionOf kind [junctionOf kind [ψ, χ], φ] :=
        junctionOf_congr_mem fun χ => by simp only [List.mem_cons]; tauto
    _ = junctionOf kind ([ψ, χ] ++ [φ]) :=
        junctionOf_junctionOf kind (forall_mem_pair.mpr ⟨normalψ, normalχ⟩) [φ]
    _ = junctionOf kind ([φ, ψ] ++ [χ]) := junctionOf_congr_mem fun χ => by
          simp only [List.cons_append, List.nil_append, List.mem_cons]; tauto

theorem junctionOf_ofBool_pair {φ : Formula} (kind : Junction) (b : Bool) (normal : Normal φ) :
    junctionOf kind [ofBool b, φ] = φ ∨ ∃ c, junctionOf kind [ofBool b, φ] = ofBool c := by
  have constant : ofBool b = kind.identity ∨ ofBool b = kind.absorbing := by
    cases kind <;> cases b <;> decide
  rcases constant with same | same
  · rw [same]
    exact Or.inl (junctionOf_identity_pair normal)
  · refine Or.inr ⟨b, ?_⟩
    rw [same, junctionOf_absorbing_cons]

/-- What is added to the outer junction does not make a new layer. -/
theorem junctionOf_mem_layers (closed : Closed S) (normal : Normal u)
    (built : s ∈ junctionsOver kind S) (member : r ∈ layers kind S u h i) :
    junctionOf kind [s, r] ∈ layers kind S u h i := by
  have normalOver : ∀ s ∈ junctionsOver kind S, Normal s := fun s =>
    normal_of_mem_junctionsOver closed.normal
  have join : ∀ t ∈ junctionsOver kind S, junctionOf kind [s, t] ∈ junctionsOver kind S := by
    intro t other
    exact junctionOf_mem_junctionsOver closed.normal (forall_mem_pair.mpr ⟨built, other⟩)
  cases i with
  | zero =>
    rcases mem_layers_zero.mp member with other | ⟨t, other, rfl⟩
    · exact Or.inl (join r other)
    · rw [junctionOf_pair_junctionOf (normalOver s built) (normalOver t other) normal]
      exact mem_layers_zero.mpr (Or.inr ⟨_, join t other, rfl⟩)
  | succ i =>
    obtain ⟨t, other, guard, inside, settled, r, below, rfl⟩ := mem_layers_succ.mp member
    have body := normal_junctionOf kind.other
      (forall_mem_pair.mpr ⟨closed.normal guard inside, normal_layers closed normal below⟩)
    rw [junctionOf_pair_junctionOf (normalOver s built) (normalOver t other) body]
    exact mem_layers_succ.mpr ⟨_, join t other, guard, inside, settled, r, below, rfl⟩

theorem self_mem_layers (closed : Closed S) (normal : Normal u) : u ∈ layers kind S u h 0 :=
  mem_layers_zero.mpr (Or.inr ⟨kind.identity,
    mem_junctionsOver closed.normal (closed.identity kind), (junctionOf_identity_pair normal).symm⟩)

/-- A layer with a guard that is settled is no layer. -/
theorem layers_collapse (closed : Closed S) (normal : Normal u) (settled : h ≤ i)
    (member : r ∈ layers kind S u h (i + 1)) : ∃ j ≤ i, r ∈ layers kind S u h j := by
  obtain ⟨s, built, guard, _, constant, r, below, rfl⟩ := mem_layers_succ.mp member
  rw [Nat.sub_eq_zero_of_le (by omega), settledBy_zero] at constant
  obtain ⟨b, rfl⟩ := constant
  rcases junctionOf_ofBool_pair kind.other b (normal_layers closed normal below) with
    same | ⟨c, same⟩
  · rw [same]
    exact ⟨i, le_rfl, junctionOf_mem_layers closed normal built below⟩
  · rw [same]
    exact ⟨0, Nat.zero_le i, junctionOf_mem_layers closed normal built
      (Or.inl (mem_junctionsOver closed.normal (closed.constant c)))⟩

/-- A tick adds at most one layer. -/
theorem progress_layers (closed : Closed S) (normal : Normal u)
    (unwinds : ∀ o, ∃ j ≤ 1, u.progress o ∈ layers kind S u h j)
    (member : r ∈ layers kind S u h i) (o : Observation) :
    ∃ j ≤ i + 1, r.progress o ∈ layers kind S u h j := by
  have closedOver : Closed (junctionsOver kind S) := by
    apply closed_junctionsOver closed.finite closed.normal closed.constant
    intro φ inside o
    exact mem_junctionsOver closed.normal (closed.progress φ inside o)
  have decided : ∀ (either : Junction) (n : Nat), ∃ j ≤ n,
      either.absorbing.progress o ∈ layers kind S u h j := by
    intro either n
    exact ⟨0, Nat.zero_le n, Or.inl (closedOver.progress _ (closedOver.absorbing either) o)⟩
  induction i generalizing r with
  | zero =>
    rcases mem_layers_zero.mp member with built | ⟨s, built, rfl⟩
    · exact ⟨0, Nat.zero_le 1, Or.inl (closedOver.progress r built o)⟩
    · rcases progress_junctionOf kind [s, u] o with absorbed | passes
      · rw [absorbed]
        exact decided kind _
      · obtain ⟨j, below, inside⟩ := unwinds o
        rw [passes]
        exact ⟨j, below, junctionOf_mem_layers closed normal (closedOver.progress s built o) inside⟩
  | succ i ih =>
    obtain ⟨s, built, guard, inside, settled, r, below, rfl⟩ := mem_layers_succ.mp member
    have built := closedOver.progress s built o
    rcases progress_junctionOf kind [s, junctionOf kind.other [guard, r]] o with absorbed | passes
    · rw [absorbed]
      exact decided kind _
    rw [passes]
    rcases progress_junctionOf kind.other [guard, r] o with absorbed | passes
    · obtain ⟨j, bound, constant⟩ := decided kind.other (i + 1 + 1)
      refine ⟨j, bound, ?_⟩
      simp only [List.map_cons, List.map_nil, absorbed]
      exact junctionOf_mem_layers closed normal built constant
    · obtain ⟨j, bound, later⟩ := ih below
      refine ⟨j + 1, by omega, mem_layers_succ.mpr ?_⟩
      refine ⟨_, built, guard.progress o, ?_, ?_, _, later, ?_⟩
      · exact closed.progress guard inside o
      · exact (settled.progress o).mono (by omega)
      · simp only [List.map_cons, List.map_nil, passes]

theorem closed_layers (closed : Closed S) (normal : Normal u)
    (unwinds : ∀ o, ∃ j ≤ 1, u.progress o ∈ layers kind S u h j) :
    Closed {r | ∃ i ≤ h, r ∈ layers kind S u h i} where
  finite := by
    have few : (⋃ i ∈ {i | i ≤ h}, layers kind S u h i).Finite :=
      (Set.finite_le_nat h).biUnion fun i _ => finite_layers closed.finite i
    exact few.subset fun r ⟨i, bound, member⟩ => Set.mem_iUnion₂.mpr ⟨i, bound, member⟩
  normal := by
    rintro r ⟨i, _, member⟩
    exact normal_layers closed normal member
  constant b := ⟨0, Nat.zero_le h, Or.inl (mem_junctionsOver closed.normal (closed.constant b))⟩
  progress := by
    rintro r ⟨i, few, member⟩ o
    obtain ⟨j, bound, later⟩ := progress_layers closed normal unwinds member o
    rcases Nat.lt_or_ge h j with beyond | within
    · obtain rfl : j = h + 1 := by omega
      exact layers_collapse closed normal le_rfl later
    · exact ⟨j, within, later⟩

/-- Only finitely many formulas arise around an until whose unwinding makes layers. -/
theorem Complete.exists_layers (complete : Complete S) (kind : Junction) (normal : Normal u)
    (plain : negationOf u = neg u) (unwinds : ∀ o, ∃ j ≤ 1, u.progress o ∈ layers kind S u h j) :
    ∃ T, Complete T ∧ u ∈ T := by
  have closed := closed_layers complete.toClosed normal unwinds
  have subset : S ⊆ {r | ∃ i ≤ h, r ∈ layers kind S u h i} := by
    intro φ inside
    exact ⟨0, Nat.zero_le h, Or.inl (mem_junctionsOver complete.normal inside)⟩
  have self : u ∈ {r | ∃ i ≤ h, r ∈ layers kind S u h i} :=
    ⟨0, Nat.zero_le h, self_mem_layers complete.toClosed normal⟩
  refine ⟨_, closed.complete ?_, Or.inl self⟩
  rintro r ⟨i, _, member⟩
  exact (negatable_layers complete normal plain member).mono subset

section Until

variable {φ ψ : Formula}

/-- The left side is settled: layers are disjunctions around guarded conjunctions. -/
theorem Complete.exists_untilOf_left (complete : Complete S) (memberφ : φ ∈ S) (memberψ : ψ ∈ S)
    (normal : Normal (strongUntil φ ψ)) (settled : SettledBy h φ) :
    ∃ T, Complete T ∧ strongUntil φ ψ ∈ T := by
  have closed := complete.toClosed
  apply complete.exists_layers .any (h := h) normal rfl
  intro o
  refine ⟨1, le_rfl, ?_⟩
  rw [progress_strongUntil normal]
  exact mem_layers_succ.mpr ⟨_, mem_junctionsOver closed.normal (closed.progress ψ memberψ o),
    _, closed.progress φ memberφ o, settled.progress o, _, self_mem_layers closed normal, rfl⟩

/-- The right side is settled: layers are conjunctions around guarded disjunctions. -/
theorem Complete.exists_untilOf_right (complete : Complete S) (memberφ : φ ∈ S) (memberψ : ψ ∈ S)
    (normal : Normal (strongUntil φ ψ)) (settled : SettledBy h ψ) :
    ∃ T, Complete T ∧ strongUntil φ ψ ∈ T := by
  have closed := complete.toClosed
  apply complete.exists_layers .all (h := h) normal rfl
  intro o
  refine ⟨1, le_rfl, ?_⟩
  rw [progress_strongUntil normal]
  have inner : junctionOf .all [φ.progress o, strongUntil φ ψ] ∈
      layers .all S (strongUntil φ ψ) h 0 :=
    mem_layers_zero.mpr (Or.inr
      ⟨_, mem_junctionsOver closed.normal (closed.progress φ memberφ o), rfl⟩)
  have whole := normal_junctionOf .any (forall_mem_pair.mpr ⟨normal_progress ψ o,
    normal_layers closed normal inner⟩)
  exact mem_layers_succ.mpr ⟨Junction.identity .all,
    mem_junctionsOver closed.normal (closed.identity .all), _, closed.progress ψ memberψ o,
    settled.progress o, _, inner, (junctionOf_identity_pair whole).symm⟩

end Until

end Layers

/-- At every until one side is settled by a bounded number of observations. -/
inductive GuardedUntils : Formula → Prop where
  | bot : GuardedUntils bot
  | top : GuardedUntils top
  | atom (i) : GuardedUntils (atom i)
  | neg {φ} : GuardedUntils φ → GuardedUntils (neg φ)
  | junction {kind operands} : (∀ φ ∈ operands, GuardedUntils φ) →
      GuardedUntils (junction kind operands)
  | implies {φ ψ} : GuardedUntils φ → GuardedUntils ψ → GuardedUntils (implies φ ψ)
  | next {φ} : GuardedUntils φ → GuardedUntils (next φ)
  | eventually {φ} : GuardedUntils φ → GuardedUntils (eventually φ)
  | always {φ} : GuardedUntils φ → GuardedUntils (always φ)
  | strongUntil {φ ψ} : GuardedUntils φ → GuardedUntils ψ →
      (∃ n, SettledBy n φ) ∨ (∃ n, SettledBy n ψ) → GuardedUntils (strongUntil φ ψ)

/-- A normal formula of this kind lies in a finite set that progression does not leave. -/
theorem GuardedUntils.exists_complete {φ : Formula} (guarded : GuardedUntils φ)
    (normal : Normal φ) : ∃ S, Complete S ∧ φ ∈ S := by
  induction guarded with
  | bot => exact ⟨_, complete_constants, Or.inl rfl⟩
  | top => exact ⟨_, complete_constants, Or.inr rfl⟩
  | atom i => exact exists_complete_atom i
  | @neg φ _ ih =>
    cases normal with
    | neg normal stays =>
      obtain ⟨S, complete, member⟩ := ih normal
      exact ⟨S, complete, stays ▸ complete.negation φ member⟩
  | @junction kind operands _ ih =>
    cases normal with
    | junction normal tidy several =>
      obtain ⟨S, complete, members⟩ :=
        exists_complete_of_forall fun φ member => ih φ member (normal φ member)
      obtain ⟨T, completeT, member⟩ := complete.exists_junctionOf kind members
      rw [tidy.junctionOf_eq, closeJunction_eq several] at member
      exact ⟨T, completeT, member⟩
  | implies _ _ ihφ ihψ =>
    cases normal with
    | implies normalφ normalψ stays =>
      obtain ⟨S, completeS, memberφ⟩ := ihφ normalφ
      obtain ⟨T, completeT, memberψ⟩ := ihψ normalψ
      rw [← stays]
      exact (completeS.union completeT).exists_impliesOf (Or.inl memberφ) (Or.inr memberψ)
  | next _ ih =>
    cases normal with
    | next normal stays =>
      obtain ⟨S, complete, member⟩ := ih normal
      rw [← stays]
      exact complete.exists_nextOf member
  | eventually _ ih =>
    cases normal with
    | eventually normal stays =>
      obtain ⟨S, complete, member⟩ := ih normal
      obtain ⟨T, completeT, inside, _⟩ := complete.exists_eventuallyOf member
      exact ⟨T, completeT, stays ▸ inside⟩
  | @always φ _ ih =>
    cases normal with
    | always normal stays =>
      obtain ⟨S, complete, member⟩ := ih normal
      -- An invariant negates the eventual obligation for the negated body.
      obtain ⟨T, completeT, _, inside⟩ := complete.exists_eventuallyOf (complete.negation φ member)
      rw [normal.negationOf_negationOf, stays] at inside
      exact ⟨T, completeT, inside⟩
  | strongUntil _ _ settled ihφ ihψ =>
    cases normal with
    | strongUntil normalφ normalψ stays =>
      obtain ⟨S, completeS, memberφ⟩ := ihφ normalφ
      obtain ⟨T, completeT, memberψ⟩ := ihψ normalψ
      have complete := completeS.union completeT
      have normal := Normal.strongUntil normalφ normalψ stays
      rcases settled with ⟨n, settled⟩ | ⟨n, settled⟩
      · exact complete.exists_untilOf_left (Or.inl memberφ) (Or.inr memberψ) normal settled
      · exact complete.exists_untilOf_right (Or.inl memberφ) (Or.inr memberψ) normal settled

end Formula

end TemporalRewards
