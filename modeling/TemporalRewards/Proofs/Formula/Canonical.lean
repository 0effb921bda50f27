import Mathlib.Logic.Relation
import TemporalRewards.Proofs.Monitor.Residuals

/-! Simplified formulas as they look. A constant occurs only as the whole formula, junctions
are flat, strictly increasing and without complements, a negation stands before what it cannot
be moved into, and the two sides of an implication or an until differ. These are exactly the
formulas that simplification keeps. How the operands of junctions are arranged, repeated and
grouped has no influence on the simplified formula. -/
namespace TemporalRewards.Formula

/-- Formulas that a negation stays in front of. -/
def StaysNegated : Formula → Prop
  | atom _ | junction _ _ | implies _ _ | strongUntil _ _ => True
  | _ => False

/-- Formulas without constants to which no simplification applies. -/
inductive Reduced : Formula → Prop where
  | atom (i) : Reduced (atom i)
  | neg {φ} : Reduced φ → StaysNegated φ → Reduced (neg φ)
  | junction {kind operands} : (∀ φ ∈ operands, Reduced φ) → 2 ≤ operands.length →
      Increasing operands → (∀ inner, junction kind inner ∉ operands) →
      (∀ φ ∈ operands, neg φ ∉ operands) → Reduced (junction kind operands)
  | implies {φ ψ} : Reduced φ → Reduced ψ → φ ≠ ψ → Reduced (implies φ ψ)
  | next {φ} : Reduced φ → Reduced (next φ)
  | eventually {φ} : Reduced φ → Reduced (eventually φ)
  | always {φ} : Reduced φ → Reduced (always φ)
  | strongUntil {φ ψ} : Reduced φ → Reduced ψ → φ ≠ ψ → Reduced (strongUntil φ ψ)

/-- A constant, or a formula in which none occurs and no simplification applies. -/
def InNormalForm (φ : Formula) : Prop := φ.IsConstant ∨ φ.Reduced

section NormalForm

variable {φ ψ : Formula} {kind : Junction} {operands : List Formula}

theorem Reduced.not_constant (reduced : φ.Reduced) : ¬ φ.IsConstant := by
  rintro ⟨_ | _, rfl⟩ <;> contradiction

theorem negationOf_eq_neg_iff : negationOf φ = neg φ ↔ StaysNegated φ := by
  cases φ with
  | bot | top | atom | junction | implies | strongUntil => simp [negationOf, StaysNegated]
  | neg φ => exact iff_of_false (ne_of_size_lt (by simp only [negationOf, size]; omega)) id
  | next φ =>
    refine iff_of_false ?_ id
    cases h : negationOf φ <;> simp [negationOf, nextOf, h]
  | eventually φ =>
    refine iff_of_false ?_ id
    cases h : negationOf φ <;> simp [negationOf, alwaysOf, h]
  | always φ =>
    refine iff_of_false ?_ id
    cases h : negationOf φ <;> simp [negationOf, eventuallyOf, h]

theorem isConstant_iff_absorbing_or_identity (kind : Junction) :
    φ.IsConstant ↔ φ = kind.absorbing ∨ φ = kind.identity := by
  cases kind with
  | all => exact isConstant_iff
  | any => exact isConstant_iff.trans or_comm

theorem parts_eq_singleton_iff : kind.parts φ = [φ] ↔ ∀ inner, φ ≠ junction kind inner := by
  refine ⟨?_, parts_of_ne⟩
  rintro single inner rfl
  rw [parts_junction] at single
  have larger := congrArg sizeAll single
  simp only [sizeAll, size] at larger
  omega

theorem tidy_iff : Tidy kind operands ↔ Increasing operands ∧ (∀ φ ∈ operands, ¬ φ.IsConstant) ∧
    (∀ inner, junction kind inner ∉ operands) ∧ ∀ φ ∈ operands, neg φ ∉ operands := by
  have complement : hasComplement operands = false ↔ ∀ φ ∈ operands, neg φ ∉ operands := by
    rw [Bool.eq_false_iff, ne_eq, hasComplement_iff]
    grind
  have flat : (∀ φ ∈ operands, kind.parts φ = [φ]) ↔ ∀ inner, junction kind inner ∉ operands := by
    simp only [parts_eq_singleton_iff]
    grind
  have proper : kind.absorbing ∉ operands ∧ kind.identity ∉ operands ↔
      ∀ φ ∈ operands, ¬ φ.IsConstant := by
    simp only [isConstant_iff_absorbing_or_identity kind]
    grind
  constructor
  · intro tidy
    exact ⟨tidy.increasing, proper.mp ⟨tidy.undecided, tidy.proper⟩, flat.mp tidy.flat,
      complement.mp tidy.uncomplemented⟩
  · rintro ⟨increasing, varying, single, apart⟩
    obtain ⟨undecided, identity⟩ := proper.mpr varying
    exact ⟨increasing, flat.mpr single, undecided, identity, complement.mpr apart⟩

theorem InNormalForm.reduced (form : φ.InNormalForm) (varying : ¬ φ.IsConstant) : φ.Reduced :=
  form.resolve_left varying

theorem Normal.inNormalForm (normal : Normal φ) : φ.InNormalForm := by
  induction normal with
  | bot => exact Or.inl ⟨false, rfl⟩
  | top => exact Or.inl ⟨true, rfl⟩
  | atom i => exact Or.inr (.atom i)
  | @neg φ _ stays form =>
    have stays := negationOf_eq_neg_iff.mp stays
    have varying : ¬ φ.IsConstant := by
      rintro ⟨_ | _, rfl⟩ <;> exact stays
    exact Or.inr (.neg (form.reduced varying) stays)
  | junction _ tidy several form =>
    obtain ⟨increasing, varying, flat, apart⟩ := tidy_iff.mp tidy
    exact Or.inr (.junction (fun φ member => (form φ member).reduced (varying φ member)) several
      increasing flat apart)
  | implies _ _ stays formφ formψ =>
    obtain ⟨varyingφ, varyingψ, apart⟩ := impliesOf_eq_implies_iff.mp stays
    exact Or.inr (.implies (formφ.reduced varyingφ) (formψ.reduced varyingψ) apart)
  | next _ stays form => exact Or.inr (.next (form.reduced (nextOf_eq_next_iff.mp stays)))
  | eventually _ stays form =>
    exact Or.inr (.eventually (form.reduced (eventuallyOf_eq_eventually_iff.mp stays)))
  | always _ stays form => exact Or.inr (.always (form.reduced (alwaysOf_eq_always_iff.mp stays)))
  | strongUntil _ _ stays formφ formψ =>
    obtain ⟨varyingφ, varyingψ, apart⟩ := untilOf_eq_strongUntil_iff.mp stays
    exact Or.inr (.strongUntil (formφ.reduced varyingφ) (formψ.reduced varyingψ) apart)

theorem Reduced.normal (reduced : φ.Reduced) : Normal φ := by
  induction reduced with
  | atom i => exact .atom i
  | neg _ stays normal => exact .neg normal (negationOf_eq_neg_iff.mpr stays)
  | junction reduced several increasing flat apart normal =>
    have tidy := tidy_iff.mpr
      ⟨increasing, fun φ member => (reduced φ member).not_constant, flat, apart⟩
    exact .junction normal tidy several
  | implies reducedφ reducedψ apart normalφ normalψ =>
    exact .implies normalφ normalψ
      (impliesOf_eq_implies_iff.mpr ⟨reducedφ.not_constant, reducedψ.not_constant, apart⟩)
  | next reduced normal => exact .next normal (nextOf_eq_next_iff.mpr reduced.not_constant)
  | eventually reduced normal =>
    exact .eventually normal (eventuallyOf_eq_eventually_iff.mpr reduced.not_constant)
  | always reduced normal => exact .always normal (alwaysOf_eq_always_iff.mpr reduced.not_constant)
  | strongUntil reducedφ reducedψ apart normalφ normalψ =>
    exact .strongUntil normalφ normalψ
      (untilOf_eq_strongUntil_iff.mpr ⟨reducedφ.not_constant, reducedψ.not_constant, apart⟩)

/-- Exactly the formulas in normal form are kept by simplification. -/
theorem simplify_eq_self_iff : φ.simplify = φ ↔ φ.InNormalForm := by
  constructor
  · intro same
    rw [← same]
    exact (normal_simplify φ).inNormalForm
  · rintro (⟨b, rfl⟩ | reduced)
    · exact simplify_ofBool b
    · exact reduced.normal.simplify_eq

/-- Moving a negation inward and simplifying the outcome once more changes nothing further. -/
theorem simplify_neg (φ : Formula) : (neg φ).simplify = match φ.simplify with
    | top => bot
    | bot => top
    | neg ψ => ψ
    | next ψ => (next (neg ψ)).simplify
    | eventually ψ => (always (neg ψ)).simplify
    | always ψ => (eventually (neg ψ)).simplify
    | ψ => neg ψ := by
  have normal := normal_simplify φ
  rw [simplify]
  generalize φ.simplify = φ at normal
  cases normal with
  | bot | top | atom | neg | junction | implies | strongUntil => rfl
  | next normal | eventually normal | always normal =>
    simp only [negationOf, simplify, normal.simplify_eq]

/-- An implication whose conclusion is simplified to `bot` is its denied premise. -/
theorem simplify_implies (φ ψ : Formula) :
    (implies φ ψ).simplify = match φ.simplify, ψ.simplify with
      | bot, _ => top
      | _, top => top
      | top, ψ => ψ
      | φ, bot => (neg φ).simplify
      | φ, ψ => if φ = ψ then top else implies φ ψ := by
  have normal := normal_simplify φ
  rw [simplify]
  generalize φ.simplify = φ at normal
  fun_cases impliesOf φ ψ.simplify <;> simp_all [simplify, normal.simplify_eq]

/-- One simplification reaches a normal form, and a second one changes nothing. So does
progression, and so every residual of a monitor is in normal form. -/
theorem simplify_inNormalForm (φ : Formula) :
    (φ.simplify.simplify = φ.simplify ∧ φ.simplify.InNormalForm) ∧
      (∀ o, (φ.progress o).simplify = φ.progress o ∧ (φ.progress o).InNormalForm) ∧
      ∀ r ∈ residuals φ, r.simplify = r ∧ r.InNormalForm := by
  have both : ∀ {ψ : Formula}, Normal ψ → ψ.simplify = ψ ∧ ψ.InNormalForm := fun normal =>
    ⟨normal.simplify_eq, normal.inNormalForm⟩
  refine ⟨both (normal_simplify φ), fun o => both (normal_progress φ o), ?_⟩
  rintro r ⟨calls, m, reached, rfl⟩
  exact both (reached.residual_of_step (normal_simplify φ) fun ψ _ o => normal_progress ψ o).2

/-- What `X (b and a) until F c` leaves at a tick without `c` has all kinds of junctions. -/
theorem simplify_inNormalForm_until :
    let φ := strongUntil (next (and (atom 1) (atom 0))) (eventually (atom 2))
    (junction .any
      [junction .all [atom 0, atom 1, φ.simplify], eventually (atom 2)]).InNormalForm := by
  intro φ
  have reached : Monitor.Reached φ [(0, .ofNat 0)] ((Monitor.ofFormula φ).advance 0 (.ofNat 0)) :=
    .accepted .start rfl
  have member : junction .any [junction .all [atom 0, atom 1, φ.simplify], eventually (atom 2)] ∈
      residuals φ := ⟨_, _, reached, by decide +kernel⟩
  exact ((simplify_inNormalForm φ).2.2 _ member).2

end NormalForm

/-- Junctions that differ in how operands are arranged, anywhere in a formula. -/
inductive Rearranges : Formula → Formula → Prop where
  | permuted {kind xs ys} : xs.Perm ys → Rearranges (junction kind xs) (junction kind ys)
  | repeated {kind φ operands} : φ ∈ operands →
      Rearranges (junction kind (φ :: operands)) (junction kind operands)
  | identity {kind operands} :
      Rearranges (junction kind (kind.identity :: operands)) (junction kind operands)
  | grouped {kind inner outer operands} : operands.Perm (inner ++ outer) →
      Rearranges (junction kind (junction kind inner :: outer)) (junction kind operands)
  | neg {φ ψ} : Rearranges φ ψ → Rearranges (neg φ) (neg ψ)
  | operand {kind φ ψ operands} : Rearranges φ ψ →
      Rearranges (junction kind (φ :: operands)) (junction kind (ψ :: operands))
  | premise {φ ψ χ} : Rearranges φ ψ → Rearranges (implies φ χ) (implies ψ χ)
  | conclusion {φ ψ χ} : Rearranges φ ψ → Rearranges (implies χ φ) (implies χ ψ)
  | next {φ ψ} : Rearranges φ ψ → Rearranges (next φ) (next ψ)
  | eventually {φ ψ} : Rearranges φ ψ → Rearranges (eventually φ) (eventually ψ)
  | always {φ ψ} : Rearranges φ ψ → Rearranges (always φ) (always ψ)
  | left {φ ψ χ} : Rearranges φ ψ → Rearranges (strongUntil φ χ) (strongUntil ψ χ)
  | right {φ ψ χ} : Rearranges φ ψ → Rearranges (strongUntil χ φ) (strongUntil χ ψ)

section Rearrangement

variable {φ ψ : Formula} {kind : Junction} {xs ys inner outer operands : List Formula}

theorem simplify_identity (kind : Junction) : kind.identity.simplify = kind.identity := by
  cases kind <;> rfl

/-- A simplified junction depends on which operands it has only. -/
theorem simplify_junction_congr (same : ∀ φ, φ ∈ xs ↔ φ ∈ ys) :
    (junction kind xs).simplify = (junction kind ys).simplify := by
  rw [simplify_junction, simplify_junction]
  exact junctionOf_congr_mem fun χ => by simp only [List.mem_map, same]

/-- A group simplifies to a constant, to one formula or to a junction. In each case it
contributes to the whole what its operands do. -/
theorem simplify_grouped (kind : Junction) (inner outer : List Formula) :
    (junction kind (junction kind inner :: outer)).simplify =
      (junction kind (inner ++ outer)).simplify := by
  have normal : ∀ φ ∈ inner.map simplify, Normal φ :=
    List.forall_mem_map.mpr fun φ _ => normal_simplify φ
  calc (junction kind (junction kind inner :: outer)).simplify
      = junctionOf kind (junctionOf kind (inner.map simplify) :: outer.map simplify) := by
        rw [simplify_junction, List.map_cons, simplify_junction]
    _ = junctionOf kind (inner.map simplify ++ outer.map simplify) :=
        junctionOf_junctionOf kind normal _
    _ = (junction kind (inner ++ outer)).simplify := by
        rw [simplify_junction, List.map_append]

theorem Rearranges.simplify_eq (rearranges : Rearranges φ ψ) : φ.simplify = ψ.simplify := by
  induction rearranges with
  | permuted perm => exact simplify_junction_congr fun χ => perm.mem_iff
  | repeated member => exact simplify_junction_congr fun χ => by grind
  | identity =>
    rw [simplify_junction, List.map_cons, simplify_identity, junctionOf_identity_cons,
      ← simplify_junction]
  | @grouped kind inner outer operands perm =>
    rw [simplify_grouped]
    exact simplify_junction_congr fun χ => perm.mem_iff.symm
  | operand _ same => simp only [simplify_junction, List.map_cons, same]
  | neg _ same | premise _ same | conclusion _ same | next _ same | eventually _ same
  | always _ same | left _ same | right _ same => simp only [simplify, same]

/-- Junctions are simplified up to associativity, commutativity and idempotence. However often
operands are permuted, repeated, joined by the identity or grouped into junctions of the same
kind, or are taken out again, at any place of a formula, it simplifies to the same formula. -/
theorem simplify_rearranged (rearranged : Relation.EqvGen Rearranges φ ψ) :
    φ.simplify = ψ.simplify := by
  induction rearranged with
  | rel _ _ rearranges => exact rearranges.simplify_eq
  | refl => rfl
  | symm _ _ _ same => exact same.symm
  | trans _ _ _ _ _ first second => exact first.trans second

/-- Below an always, `(b and a) and true and a` is regrouped to `a and b`. -/
theorem simplify_rearranged_always :
    (always (junction .all [and (atom 1) (atom 0), top, atom 0])).simplify =
      (always (and (atom 0) (atom 1))).simplify := by
  have regrouped : Rearranges (junction .all [and (atom 1) (atom 0), top, atom 0])
      (junction .all [top, atom 0, atom 0, atom 1]) := .grouped (by decide)
  have whole : Rearranges (junction .all [top, atom 0, atom 0, atom 1])
      (junction .all [atom 0, atom 0, atom 1]) := .identity
  have once : Rearranges (junction .all [atom 0, atom 0, atom 1])
      (junction .all [atom 0, atom 1]) := .repeated List.mem_cons_self
  exact simplify_rearranged (.trans _ _ _ (.rel _ _ regrouped.always)
    (.trans _ _ _ (.rel _ _ whole.always) (.rel _ _ once.always)))

end Rearrangement

end TemporalRewards.Formula
