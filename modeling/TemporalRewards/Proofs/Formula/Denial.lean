import TemporalRewards.Proofs.Formula.Polarity
import TemporalRewards.Proofs.Formula.Settling

/-! Conjunctions below a negation. The negation of a conjunction can be spelled as one
negation or as the disjunction of the negated operands, and negation moves into an always.
Either spelling progresses to a disjunction of negated pieces, and the pieces that are left
of a conjunction do not depend on how its operands are grouped. -/
namespace TemporalRewards.Formula

/-- A simplified formula that may be negated before or after it is progressed: below the
negation eventually occurs at even and always at odd polarity only. -/
structure Deniable (φ : Formula) : Prop where
  normal : Normal φ
  coSafe : φ.Respects (.coSafety fun _ => True) false

/-- What an observation leaves of the operands of a conjunction, where the copies of an
always stay apart from what is left of its body. -/
def pieces (o : Observation) : Formula → List Formula
  | always φ => pieces o φ ++ [always φ]
  | φ => [φ.progress o]

/-- Not all of some formulas, or another formula. -/
def deny (xs : List Formula) (ψ : Formula) : Formula :=
  junctionOf .any (ψ :: xs.map negationOf)

/-- An observation violates none of the conjunctions among some formulas. -/
def Spared (o : Observation) (xs : List Formula) : Prop :=
  ∀ operands, junction .all operands ∈ xs → (junction .all operands).progress o ≠ bot

section Pieces

variable {φ ψ χ : Formula} {xs ys : List Formula} {o : Observation}

theorem Deniable.body (deniable : Deniable (always φ)) : Deniable φ := by
  obtain ⟨normal, coSafe⟩ := deniable
  cases normal with
  | always normal => cases coSafe with
    | always _ coSafe => exact ⟨normal, coSafe⟩

theorem Deniable.progress (deniable : Deniable φ) (o : Observation) : Deniable (φ.progress o) :=
  ⟨normal_progress φ o, deniable.coSafe.progress deniable.normal o⟩

theorem Deniable.pieces (deniable : Deniable φ) : ∀ χ ∈ pieces o φ, Deniable χ := by
  induction φ with
  | always φ ih =>
    rw [Formula.pieces]
    exact List.forall_mem_append.mpr
      ⟨ih deniable.body, List.forall_mem_singleton.mpr deniable⟩
  | _ => exact List.forall_mem_singleton.mpr (deniable.progress o)

/-- A formula progresses to the conjunction of its pieces. -/
theorem Deniable.progress_eq (deniable : Deniable φ) (o : Observation) :
    φ.progress o = junctionOf .all (Formula.pieces o φ) := by
  induction φ with
  | always φ ih =>
    have normal : ∀ χ ∈ Formula.pieces o φ, Normal χ := fun χ member =>
      (deniable.body.pieces χ member).normal
    rw [progress_always deniable.normal, ih deniable.body, junctionOf_junctionOf .all normal]
    rfl
  | _ => exact (junctionOf_singleton (normal_progress _ o)).symm

/-- The negation of a constant is one, and of nothing else. -/
theorem isConstant_negationOf (normal : Normal φ) : IsConstant (negationOf φ) ↔ IsConstant φ := by
  constructor
  · rintro ⟨b, constant⟩
    rw [← normal.negationOf_negationOf, constant, negationOf_ofBool]
    exact ⟨!b, rfl⟩
  · rintro ⟨b, rfl⟩
    rw [negationOf_ofBool]
    exact ⟨!b, rfl⟩

/-- The body of a simplified next is not a constant, and its negation is not either. -/
theorem negationOf_next (normal : Normal (next φ)) :
    negationOf (next φ) = next (negationOf φ) := by
  cases normal with
  | next normal stays =>
    apply nextOf_eq_next_iff.mpr
    rw [isConstant_negationOf normal]
    exact nextOf_eq_next_iff.mp stays

theorem negationOf_always (normal : Normal (always φ)) :
    negationOf (always φ) = eventually (negationOf φ) := by
  cases normal with
  | always normal stays =>
    apply eventuallyOf_eq_eventually_iff.mpr
    rw [isConstant_negationOf normal]
    exact alwaysOf_eq_always_iff.mp stays

/-- The negation of a formula progresses to the disjunction of its negated pieces. -/
theorem Deniable.progress_negationOf (deniable : Deniable φ) (o : Observation) :
    (negationOf φ).progress o = junctionOf .any ((Formula.pieces o φ).map negationOf) := by
  obtain ⟨normal, coSafe⟩ := deniable
  -- Unless the negation moves inward, it stays in front while the formula progresses.
  have single (ψ : Formula) : negationOf (ψ.progress o) =
      junctionOf .any ([ψ.progress o].map negationOf) :=
    (junctionOf_singleton (normal_negationOf (normal_progress ψ o))).symm
  induction normal with
  | bot | top => rfl
  | atom i => exact (progress_neg _ o).trans (single _)
  | junction => exact (progress_neg _ o).trans (single _)
  | implies => exact (progress_neg _ o).trans (single _)
  | strongUntil => exact (progress_neg _ o).trans (single _)
  | @neg φ _ _ =>
    have back : φ.progress o = negationOf ((neg φ).progress o) := by
      rw [progress_neg, (normal_progress φ o).negationOf_negationOf]
    exact back.trans (single _)
  | @next φ normal stays =>
    rw [negationOf_next (.next normal stays), progress_next (normal_negationOf normal)]
    have back : negationOf φ = negationOf ((next φ).progress o) := by rw [progress_next normal]
    exact back.trans (single _)
  | eventually =>
    cases coSafe with
    | eventually never => contradiction
  | @always φ normal stays ih =>
    cases coSafe with
    | always _ coSafe =>
      have whole : Normal (always φ) := .always normal stays
      have inner : ∀ χ ∈ (Formula.pieces o φ).map negationOf, Normal χ :=
        List.forall_mem_map.mpr fun χ member =>
          normal_negationOf ((Deniable.mk normal coSafe).pieces χ member).normal
      have negated := normal_negationOf whole
      rw [negationOf_always whole] at negated ⊢
      rw [progress_eventually negated, ih coSafe, junctionOf_junctionOf .any inner,
        Formula.pieces, List.map_append, List.map_singleton, negationOf_always whole]

end Pieces

section Denials

variable {φ ψ χ : Formula} {xs ys : List Formula} {o : Observation}

theorem deniable_flatMap_pieces (deniable : ∀ φ ∈ xs, Deniable φ) :
    ∀ χ ∈ xs.flatMap (pieces o), Deniable χ := by
  intro χ member
  obtain ⟨φ, present, part⟩ := List.mem_flatMap.mp member
  exact (deniable φ present).pieces χ part

/-- As long as nothing is decided, a denial progresses to a denial of the pieces. -/
theorem progress_deny (deniable : ∀ φ ∈ xs, Deniable φ) (varying : ¬ IsConstant (deny xs ψ))
    (o : Observation) :
    (deny xs ψ).progress o = deny (xs.flatMap (pieces o)) (ψ.progress o) := by
  have each : (xs.map negationOf).map (progress o) =
      xs.map fun φ => junctionOf .any ((pieces o φ).map negationOf) := by
    rw [List.map_map]
    exact List.map_congr_left fun φ member => (deniable φ member).progress_negationOf o
  have normal : ∀ φ ∈ xs, ∀ χ ∈ (pieces o φ).map negationOf, Normal χ := fun φ member =>
    List.forall_mem_map.mpr fun χ part =>
      normal_negationOf ((deniable φ member).pieces χ part).normal
  calc (deny xs ψ).progress o
      = junctionOf .any ([ψ.progress o] ++
          xs.map fun φ => junctionOf .any ((pieces o φ).map negationOf)) := by
        rw [deny, progress_junctionOf_of_not_absorbed (not_absorbed_of_not_constant varying),
          List.map_cons, each]
        rfl
    _ = junctionOf .any ([ψ.progress o] ++ xs.flatMap fun φ => (pieces o φ).map negationOf) :=
        junctionOf_append_map .any _ normal [ψ.progress o]
    _ = deny (xs.flatMap (pieces o)) (ψ.progress o) := by
        rw [deny, List.map_flatMap]
        rfl

/-- A denial is decided if one of the denied formulas is violated. -/
theorem isConstant_deny_of_mem (violated : bot ∈ xs) : IsConstant (deny xs ψ) := by
  have absorbed : Absorbed .any (ψ :: xs.map negationOf) := by
    left
    have denied : negationOf bot ∈ xs.map negationOf := List.mem_map_of_mem violated
    exact List.mem_flatMap.mpr ⟨top, List.mem_cons_of_mem ψ denied, List.mem_cons_self⟩
  rw [deny, junctionOf_of_absorbed absorbed]
  exact ⟨true, rfl⟩

/-- The parts of the pieces of a conjunction are those of the pieces of its operands. -/
theorem mem_parts_pieces (deniable : Deniable φ) (spared : Spared o [φ]) (proper : χ ≠ top) :
    χ ∈ (pieces o φ).flatMap (Junction.parts .all) ↔
      ∃ ψ ∈ Junction.parts .all φ, χ ∈ (pieces o ψ).flatMap (Junction.parts .all) := by
  rcases parts_cases .all φ with single | ⟨operands, rfl⟩
  · rw [single]
    simp only [List.mem_singleton, exists_eq_left]
  · have each : ∀ ψ ∈ operands, Deniable ψ := by
      obtain ⟨normal, coSafe⟩ := deniable
      cases normal with
      | junction normal =>
        exact fun ψ member => ⟨normal ψ member, respects_junction.mp coSafe ψ member⟩
    have inner := deniable_flatMap_pieces (o := o) each
    have whole : (junction .all operands).progress o =
        junctionOf .all (operands.flatMap (pieces o)) := by
      rw [progress_junction, List.map_congr_left fun ψ member => (each ψ member).progress_eq o,
        junctionOf_map_junctionOf .all _ fun ψ member χ part =>
          ((each ψ member).pieces χ part).normal]
    have open' : ¬ Absorbed .all (operands.flatMap (pieces o)) := fun absorbed =>
      spared operands List.mem_cons_self (whole.trans (junctionOf_of_absorbed absorbed))
    have piece : pieces o (junction .all operands) = [(junction .all operands).progress o] := rfl
    rw [parts_junction, piece, List.flatMap_singleton, whole,
      mem_parts_junctionOf (fun ψ member => (inner ψ member).normal) open' proper,
      List.flatMap_assoc, List.mem_flatMap]

/-- The parts of the pieces depend on the operands that are kept only. -/
theorem mem_parts_flatMap_pieces (deniable : ∀ φ ∈ xs, Deniable φ) (spared : Spared o xs)
    (proper : χ ≠ top) : χ ∈ (xs.flatMap (pieces o)).flatMap (Junction.parts .all) ↔
      ∃ ψ ∈ keptOperands .all xs, χ ∈ (pieces o ψ).flatMap (Junction.parts .all) := by
  have each : ∀ φ ∈ xs, χ ∈ (pieces o φ).flatMap (Junction.parts .all) ↔
      ∃ ψ ∈ Junction.parts .all φ, χ ∈ (pieces o ψ).flatMap (Junction.parts .all) := by
    intro φ present
    refine mem_parts_pieces (deniable φ present) ?_ proper
    intro operands member
    exact spared operands (List.mem_singleton.mp member ▸ present)
  rw [List.flatMap_assoc, List.mem_flatMap]
  constructor
  · rintro ⟨φ, present, part⟩
    obtain ⟨ψ, inside, piece⟩ := (each φ present).mp part
    refine ⟨ψ, mem_keptOperands.mpr ⟨List.mem_flatMap.mpr ⟨φ, present, inside⟩, ?_⟩, piece⟩
    -- The identity has no piece but itself.
    rintro rfl
    exact proper (List.mem_singleton.mp piece)
  · rintro ⟨ψ, kept, piece⟩
    obtain ⟨φ, present, inside⟩ := List.mem_flatMap.mp (mem_keptOperands.mp kept).1
    exact ⟨φ, present, (each φ present).mpr ⟨ψ, inside, piece⟩⟩

/-- How the operands of a conjunction are grouped has no influence on the pieces, as long as
none of the groups is violated. -/
theorem keptOperands_pieces (deniablex : ∀ φ ∈ xs, Deniable φ) (deniabley : ∀ φ ∈ ys, Deniable φ)
    (sparedx : Spared o xs) (sparedy : Spared o ys)
    (same : keptOperands .all xs = keptOperands .all ys) :
    keptOperands .all (xs.flatMap (pieces o)) = keptOperands .all (ys.flatMap (pieces o)) := by
  apply keptOperands_congr
  intro χ proper
  rw [mem_parts_flatMap_pieces deniablex sparedx proper,
    mem_parts_flatMap_pieces deniabley sparedy proper, same]

/-- A conjunction is kept like its operands. -/
theorem keptOperands_junctionOf {kind : Junction} (normal : ∀ φ ∈ xs, Normal φ)
    (undecided : ¬ Absorbed kind xs) :
    keptOperands kind [junctionOf kind xs] = keptOperands kind xs := by
  apply keptOperands_congr
  intro χ proper
  rw [List.flatMap_singleton, mem_parts_junctionOf normal undecided proper]

end Denials

end TemporalRewards.Formula
