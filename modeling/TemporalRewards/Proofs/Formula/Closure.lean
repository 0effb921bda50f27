import Mathlib.Data.Finite.Prod
import Mathlib.Data.Finset.Powerset
import Mathlib.Data.Set.Finite.Lattice
import TemporalRewards.Proofs.Formula.Settling

/-! Finite sets of formulas that progression does not leave. Each operator extends
such a set to one that has the formulas made by the operator. An until copies its
sides at every tick, one layer over the other; the layers stay few if one of the
sides is settled after a while. -/
namespace TemporalRewards.Formula

/-- A finite set of normal formulas that progression does not leave. -/
structure Closed (S : Set Formula) : Prop where
  finite : S.Finite
  normal : ∀ φ ∈ S, Normal φ
  constant : ∀ b, ofBool b ∈ S
  progress : ∀ φ ∈ S, ∀ o, φ.progress o ∈ S

/-- A closed set that negation does not leave either. -/
structure Complete (S : Set Formula) : Prop extends Closed S where
  negation : ∀ φ ∈ S, negationOf φ ∈ S

section Sets

variable {S T X : Set Formula} {kind : Junction} {xs : List Formula} {φ ψ : Formula}

theorem Closed.union (closedS : Closed S) (closedT : Closed T) : Closed (S ∪ T) where
  finite := closedS.finite.union closedT.finite
  normal φ member := member.elim (closedS.normal φ) (closedT.normal φ)
  constant b := Or.inl (closedS.constant b)
  progress φ member o := member.imp (closedS.progress φ · o) (closedT.progress φ · o)

theorem Complete.union (completeS : Complete S) (completeT : Complete T) : Complete (S ∪ T) where
  toClosed := completeS.toClosed.union completeT.toClosed
  negation φ member := member.imp (completeS.negation φ) (completeT.negation φ)

theorem Closed.absorbing (closed : Closed S) (kind : Junction) : kind.absorbing ∈ S := by
  obtain ⟨b, constant⟩ := absorbing_eq_ofBool kind
  rw [constant]
  exact closed.constant b

theorem Closed.identity (closed : Closed S) (kind : Junction) : kind.identity ∈ S := by
  obtain ⟨b, constant⟩ := identity_eq_ofBool kind
  rw [constant]
  exact closed.constant b

theorem complete_constants : Complete {bot, top} where
  finite := Set.toFinite _
  normal := by
    rintro φ (rfl | rfl)
    · exact .bot
    · exact .top
  constant b := by cases b <;> simp [ofBool]
  progress := by
    rintro φ (rfl | rfl) o
    · exact Or.inl rfl
    · exact Or.inr rfl
  negation := by
    rintro φ (rfl | rfl)
    · exact Or.inr rfl
    · exact Or.inl rfl

/-- The junctions of one kind with operands from a set. -/
def junctionsOver (kind : Junction) (X : Set Formula) : Set Formula :=
  {χ | ∃ xs : List Formula, (∀ φ ∈ xs, φ ∈ X) ∧ χ = junctionOf kind xs}

theorem finite_junctionsOver (finite : X.Finite) : (junctionsOver kind X).Finite := by
  -- A junction depends on the set of its operands only.
  have subsets := finite.toFinset.powerset.finite_toSet
  refine (subsets.image fun s => junctionOf kind s.toList).subset ?_
  rintro χ ⟨xs, inside, rfl⟩
  refine ⟨xs.toFinset, Finset.mem_powerset.mpr ?_, junctionOf_congr_mem ?_⟩
  · intro φ member
    exact finite.mem_toFinset.mpr (inside φ (List.mem_toFinset.mp member))
  · intro φ
    rw [Finset.mem_toList, List.mem_toFinset]

theorem mem_junctionsOver (normal : ∀ φ ∈ X, Normal φ) (member : φ ∈ X) :
    φ ∈ junctionsOver kind X :=
  ⟨[φ], List.forall_mem_singleton.mpr member, (junctionOf_singleton (normal φ member)).symm⟩

theorem normal_of_mem_junctionsOver (normal : ∀ φ ∈ X, Normal φ)
    (member : φ ∈ junctionsOver kind X) : Normal φ := by
  obtain ⟨xs, inside, rfl⟩ := member
  exact normal_junctionOf kind fun φ member => normal φ (inside φ member)

/-- Junctions of such junctions are nothing new. -/
theorem junctionOf_mem_junctionsOver (normal : ∀ φ ∈ X, Normal φ)
    (inside : ∀ φ ∈ xs, φ ∈ junctionsOver kind X) : junctionOf kind xs ∈ junctionsOver kind X := by
  choose! inner within same using inside
  refine ⟨xs.flatMap inner, ?_, ?_⟩
  · intro χ member
    obtain ⟨φ, present, part⟩ := List.mem_flatMap.mp member
    exact within φ present χ part
  · have flat := junctionOf_map_junctionOf kind inner fun φ present χ part =>
      normal χ (within φ present χ part)
    rwa [← List.map_congr_left same, List.map_id'] at flat

/-- If progression leads from a set to junctions over it, it does not leave these. -/
theorem closed_junctionsOver (finite : X.Finite) (normal : ∀ φ ∈ X, Normal φ)
    (constant : ∀ b, ofBool b ∈ X)
    (progress : ∀ φ ∈ X, ∀ o, φ.progress o ∈ junctionsOver kind X) :
    Closed (junctionsOver kind X) where
  finite := finite_junctionsOver finite
  normal _ member := normal_of_mem_junctionsOver normal member
  constant b := mem_junctionsOver normal (constant b)
  progress := by
    rintro χ ⟨xs, inside, rfl⟩ o
    rcases progress_junctionOf kind xs o with decided | passes
    · obtain ⟨b, same⟩ := absorbing_eq_ofBool kind
      rw [decided, same, progress_ofBool]
      exact mem_junctionsOver normal (constant b)
    · rw [passes]
      apply junctionOf_mem_junctionsOver normal
      refine List.forall_mem_map.mpr ?_
      intro φ member
      exact progress φ (inside φ member) o

/-- Negation does not lead out of the set, or it only puts a negation before the formula. -/
def Negatable (S : Set Formula) (φ : Formula) : Prop := negationOf φ ∈ S ∨ negationOf φ = neg φ

theorem Negatable.mono (negatable : Negatable S φ) (subset : S ⊆ T) : Negatable T φ :=
  negatable.imp_left fun member => subset member

theorem negatable_junctionOf (kind : Junction) (constant : ∀ b, ofBool b ∈ S)
    (normal : ∀ φ ∈ xs, Normal φ) (negatable : ∀ φ ∈ xs, Negatable S φ) :
    Negatable S (junctionOf kind xs) := by
  rcases junctionOf_cases normal with ⟨b, same⟩ | member | ⟨operands, same⟩
  · rw [same, Negatable, negationOf_ofBool]
    exact Or.inl (constant !b)
  · exact negatable _ member
  · rw [same]
    exact Or.inr rfl

theorem negatable_of_mem_junctionsOver (constant : ∀ b, ofBool b ∈ S) (normal : ∀ φ ∈ X, Normal φ)
    (negatable : ∀ φ ∈ X, Negatable S φ) (member : φ ∈ junctionsOver kind X) : Negatable S φ := by
  obtain ⟨xs, inside, rfl⟩ := member
  exact negatable_junctionOf kind constant (fun φ member => normal φ (inside φ member))
    fun φ member => negatable φ (inside φ member)

/-- The negations of a closed set can be added to it. -/
theorem Closed.complete (closed : Closed S) (negatable : ∀ φ ∈ S, Negatable S φ) :
    Complete (S ∪ negationOf '' S) where
  finite := closed.finite.union (closed.finite.image _)
  normal := by
    rintro φ (member | ⟨φ, member, rfl⟩)
    · exact closed.normal φ member
    · exact normal_negationOf (closed.normal φ member)
  constant b := Or.inl (closed.constant b)
  progress := by
    rintro φ (member | ⟨φ, member, rfl⟩) o
    · exact Or.inl (closed.progress φ member o)
    · rcases negatable φ member with inside | before
      · exact Or.inl (closed.progress _ inside o)
      · rw [before, progress_neg]
        exact Or.inr ⟨_, closed.progress φ member o, rfl⟩
  negation := by
    rintro φ (member | ⟨φ, member, rfl⟩)
    · exact Or.inr ⟨φ, member, rfl⟩
    · rw [(closed.normal φ member).negationOf_negationOf]
      exact Or.inl member

end Sets

section Operators

variable {S : Set Formula} {kind : Junction} {φ ψ : Formula}

theorem Complete.negatable (complete : Complete S) (member : φ ∈ S) : Negatable S φ :=
  Or.inl (complete.negation φ member)

theorem exists_complete_atom (i : Nat) : ∃ S, Complete S ∧ atom i ∈ S := by
  have closed : Closed (insert (atom i) {bot, top}) :=
    { finite := complete_constants.finite.insert _
      normal := Set.forall_insert_of_forall complete_constants.normal (.atom i)
      constant := fun b => Or.inr (complete_constants.constant b)
      progress := Set.forall_insert_of_forall
        (fun φ member o => Or.inr (complete_constants.progress φ member o))
        fun o => Or.inr (complete_constants.constant (o.get i)) }
  refine ⟨_, closed.complete ?_, Or.inl (Or.inl rfl)⟩
  exact Set.forall_insert_of_forall
    (fun φ member => Or.inl (Or.inr (complete_constants.negation φ member))) (Or.inr rfl)

theorem exists_complete_of_forall {operands : List Formula}
    (each : ∀ φ ∈ operands, ∃ S, Complete S ∧ φ ∈ S) :
    ∃ S, Complete S ∧ ∀ φ ∈ operands, φ ∈ S := by
  induction operands with
  | nil => exact ⟨_, complete_constants, fun φ member => absurd member List.not_mem_nil⟩
  | cons φ rest ih =>
    obtain ⟨first, others⟩ := List.forall_mem_cons.mp each
    obtain ⟨S, completeS, member⟩ := first
    obtain ⟨T, completeT, members⟩ := ih others
    refine ⟨S ∪ T, completeS.union completeT, List.forall_mem_cons.mpr ⟨Or.inl member, ?_⟩⟩
    exact fun φ present => Or.inr (members φ present)

theorem Complete.exists_junctionOf (complete : Complete S) (kind : Junction)
    {operands : List Formula} (members : ∀ φ ∈ operands, φ ∈ S) :
    ∃ T, Complete T ∧ junctionOf kind operands ∈ T := by
  have subset : S ⊆ junctionsOver kind S := fun φ => mem_junctionsOver complete.normal
  have closed : Closed (junctionsOver kind S) := by
    apply closed_junctionsOver complete.finite complete.normal complete.constant
    intro φ member o
    exact subset (complete.progress φ member o)
  refine ⟨_, closed.complete ?_, Or.inl ⟨operands, members, rfl⟩⟩
  intro χ
  exact negatable_of_mem_junctionsOver closed.constant complete.normal
    fun φ member => (complete.negatable member).mono subset

theorem Complete.exists_impliesOf (complete : Complete S) (memberφ : φ ∈ S) (memberψ : ψ ∈ S) :
    ∃ T, Complete T ∧ impliesOf φ ψ ∈ T := by
  have inside : ∀ φ ∈ S, ∀ ψ ∈ S, impliesOf φ ψ ∈ S ∨ impliesOf φ ψ = implies φ ψ := by
    intro φ memberφ ψ memberψ
    rcases impliesOf_cases φ ψ with same | same | same | same
    · rw [same]; exact Or.inl (complete.constant true)
    · exact Or.inl (by rwa [same])
    · rw [same]; exact Or.inl (complete.negation φ memberφ)
    · exact Or.inr same
  have closed : Closed (S ∪ Set.image2 impliesOf S S) :=
    { finite := complete.finite.union (Set.Finite.image2 _ complete.finite complete.finite)
      normal := by
        rintro χ (member | ⟨φ, memberφ, ψ, memberψ, rfl⟩)
        · exact complete.normal χ member
        · exact normal_impliesOf (complete.normal φ memberφ) (complete.normal ψ memberψ)
      constant := fun b => Or.inl (complete.constant b)
      progress := by
        rintro χ (member | ⟨φ, memberφ, ψ, memberψ, rfl⟩) o
        · exact Or.inl (complete.progress χ member o)
        · rcases inside φ memberφ ψ memberψ with member | same
          · exact Or.inl (complete.progress _ member o)
          · rw [same, progress_implies]
            exact Or.inr ⟨_, complete.progress φ memberφ o, _, complete.progress ψ memberψ o, rfl⟩ }
  refine ⟨_, closed.complete ?_, Or.inl (Or.inr ⟨φ, memberφ, ψ, memberψ, rfl⟩)⟩
  rintro χ (member | ⟨φ, memberφ, ψ, memberψ, rfl⟩)
  · exact (complete.negatable member).mono Set.subset_union_left
  · rcases inside φ memberφ ψ memberψ with member | same
    · exact (complete.negatable member).mono Set.subset_union_left
    · rw [same]
      exact Or.inr rfl

theorem Complete.exists_nextOf (complete : Complete S) (member : φ ∈ S) :
    ∃ T, Complete T ∧ nextOf φ ∈ T := by
  refine ⟨S ∪ nextOf '' S, ?_, Or.inr ⟨φ, member, rfl⟩⟩
  exact
    { finite := complete.finite.union (complete.finite.image _)
      normal := by
        rintro χ (member | ⟨φ, member, rfl⟩)
        · exact complete.normal χ member
        · exact normal_nextOf (complete.normal φ member)
      constant := fun b => Or.inl (complete.constant b)
      progress := by
        rintro χ (member | ⟨φ, member, rfl⟩) o
        · exact Or.inl (complete.progress χ member o)
        · left
          rcases nextOf_cases φ with same | stays
          · rw [same]
            exact complete.progress φ member o
          · rwa [stays, progress_next (complete.normal φ member)]
      negation := by
        rintro χ (member | ⟨φ, member, rfl⟩)
        · exact Or.inl (complete.negation χ member)
        · rw [negationOf_nextOf]
          exact Or.inr ⟨_, complete.negation φ member, rfl⟩ }

/-- A formula whose unwinding adds it to a junction with one of a closed set. -/
theorem closed_insert {χ : Formula} (closed : Closed S) (normal : Normal χ)
    (unwinds : ∀ o, χ.progress o ∈ S ∨ ∃ φ ∈ S, χ.progress o = junctionOf kind [φ, χ]) :
    Closed (junctionsOver kind (insert χ S)) := by
  have normal : ∀ φ ∈ insert χ S, Normal φ := by
    rintro φ (rfl | inside)
    · exact normal
    · exact closed.normal φ inside
  have constant : ∀ b, ofBool b ∈ insert χ S := fun b => Or.inr (closed.constant b)
  apply closed_junctionsOver (closed.finite.insert χ) normal constant
  rintro φ (rfl | inside) o
  · rcases unwinds o with inside | ⟨ψ, inside, same⟩
    · exact mem_junctionsOver normal (Or.inr inside)
    · rw [same]
      refine ⟨_, List.forall_mem_cons.mpr ⟨Or.inr inside, ?_⟩, rfl⟩
      exact List.forall_mem_singleton.mpr (Or.inl rfl)
  · exact mem_junctionsOver normal (Or.inr (closed.progress φ inside o))

theorem closed_eventuallyOf (closed : Closed S) (member : φ ∈ S) :
    Closed (junctionsOver .any (insert (eventuallyOf φ) S)) := by
  have normal := normal_eventuallyOf (closed.normal φ member)
  apply closed_insert closed normal
  intro o
  rcases eventuallyOf_cases φ with same | stays
  · rw [same]
    exact Or.inl (closed.progress φ member o)
  · rw [stays] at normal ⊢
    exact Or.inr ⟨_, closed.progress φ member o, progress_eventually normal o⟩

theorem closed_alwaysOf (closed : Closed S) (member : φ ∈ S) :
    Closed (junctionsOver .all (insert (alwaysOf φ) S)) := by
  have normal := normal_alwaysOf (closed.normal φ member)
  apply closed_insert closed normal
  intro o
  rcases alwaysOf_cases φ with same | stays
  · rw [same]
    exact Or.inl (closed.progress φ member o)
  · rw [stays] at normal ⊢
    exact Or.inr ⟨_, closed.progress φ member o, progress_always normal o⟩

/-- Eventual obligations come with the invariants that negate them. -/
theorem Complete.exists_eventuallyOf (complete : Complete S) (member : φ ∈ S) :
    ∃ T, Complete T ∧ eventuallyOf φ ∈ T ∧ alwaysOf (negationOf φ) ∈ T := by
  have negated := complete.negation φ member
  have normalE := Set.forall_insert_of_forall complete.normal
    (normal_eventuallyOf (complete.normal φ member))
  have normalA := Set.forall_insert_of_forall complete.normal
    (normal_alwaysOf (complete.normal _ negated))
  have closed := (closed_eventuallyOf complete.toClosed member).union
    (closed_alwaysOf complete.toClosed negated)
  have eventual : eventuallyOf φ ∈ junctionsOver .any (insert (eventuallyOf φ) S) :=
    mem_junctionsOver normalE (Set.mem_insert _ _)
  have invariant : alwaysOf (negationOf φ) ∈
      junctionsOver .all (insert (alwaysOf (negationOf φ)) S) :=
    mem_junctionsOver normalA (Set.mem_insert _ _)
  have inside : ∀ χ ∈ S, χ ∈ junctionsOver .any (insert (eventuallyOf φ) S) := by
    intro χ member
    exact mem_junctionsOver normalE (Or.inr member)
  have negatable := fun χ member => (complete.negatable (φ := χ) member).mono inside
  refine ⟨_, closed.complete ?_, Or.inl (Or.inl eventual), Or.inl (Or.inr invariant)⟩
  rintro χ (built | built)
  · refine negatable_of_mem_junctionsOver closed.constant normalE ?_ built
    refine Set.forall_insert_of_forall
      (fun χ member => (negatable χ member).mono Set.subset_union_left) (Or.inl ?_)
    rw [negationOf_eventuallyOf]
    exact Or.inr invariant
  · refine negatable_of_mem_junctionsOver closed.constant normalA ?_ built
    refine Set.forall_insert_of_forall
      (fun χ member => (negatable χ member).mono Set.subset_union_left) (Or.inl ?_)
    rw [negationOf_alwaysOf, (complete.normal φ member).negationOf_negationOf]
    exact Or.inl eventual

end Operators

end TemporalRewards.Formula
