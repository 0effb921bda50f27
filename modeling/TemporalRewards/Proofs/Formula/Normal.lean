import Mathlib.Data.List.Basic
import TemporalRewards.Proofs.Formula.Propositional

/-! Formulas in simplified form. In a normal formula every node is what its
constructor makes of its parts, so simplification keeps it; what simplification
and progression answer is always normal. -/
namespace TemporalRewards.Formula

/-- Operands as a simplified junction has them. -/
structure Tidy (kind : Junction) (operands : List Formula) : Prop where
  increasing : Increasing operands
  flat : ∀ φ ∈ operands, kind.parts φ = [φ]
  undecided : kind.absorbing ∉ operands
  proper : kind.identity ∉ operands
  uncomplemented : hasComplement operands = false

inductive Normal : Formula → Prop where
  | bot : Normal bot
  | top : Normal top
  | atom (i) : Normal (atom i)
  | neg {φ} : Normal φ → negationOf φ = neg φ → Normal (neg φ)
  | junction {kind operands} : (∀ φ ∈ operands, Normal φ) → Tidy kind operands →
      2 ≤ operands.length → Normal (junction kind operands)
  | implies {φ ψ} : Normal φ → Normal ψ → impliesOf φ ψ = implies φ ψ → Normal (implies φ ψ)
  | next {φ} : Normal φ → nextOf φ = next φ → Normal (next φ)
  | eventually {φ} : Normal φ → eventuallyOf φ = eventually φ → Normal (eventually φ)
  | always {φ} : Normal φ → alwaysOf φ = always φ → Normal (always φ)
  | strongUntil {φ ψ} : Normal φ → Normal ψ → untilOf φ ψ = strongUntil φ ψ →
      Normal (strongUntil φ ψ)

theorem normal_ofBool (b : Bool) : Normal (ofBool b) := by
  cases b with
  | false => exact .bot
  | true => exact .top

section Junctions

variable {kind : Junction} {xs ys operands : List Formula} {φ χ : Formula}

theorem closeJunction_eq (several : 2 ≤ operands.length) :
    closeJunction kind operands = junction kind operands := by
  match operands, several with
  | _ :: _ :: _, _ => rfl

/-- A junction keeps operands that are tidy. -/
theorem Tidy.junctionOf_eq (tidy : Tidy kind operands) :
    junctionOf kind operands = closeJunction kind operands := by
  have flat : operands.flatMap kind.parts = operands := by
    rw [List.flatMap_congr tidy.flat, List.flatMap_singleton']
  have kept : keptOperands kind operands = operands := by
    rw [keptOperands, flat, List.filter_eq_self.mpr, tidy.increasing.sortOperands_eq]
    intro φ member
    rw [bne_iff_ne]
    rintro rfl
    exact tidy.proper member
  rw [Formula.junctionOf_eq, flat, if_neg tidy.undecided, kept, tidy.uncomplemented,
    if_neg (by decide)]

/-- Simplification keeps a normal formula. -/
theorem Normal.simplify_eq (normal : Normal φ) : φ.simplify = φ := by
  induction normal with
  | bot | top | atom => rw [simplify]
  | neg _ stays ih => rw [simplify, ih, stays]
  | junction _ tidy several ih =>
    rw [simplify_junction, List.map_congr_left ih, List.map_id', tidy.junctionOf_eq,
      closeJunction_eq several]
  | implies _ _ stays ihφ ihψ => rw [simplify, ihφ, ihψ, stays]
  | next _ stays ih => rw [simplify, ih, stays]
  | eventually _ stays ih => rw [simplify, ih, stays]
  | always _ stays ih => rw [simplify, ih, stays]
  | strongUntil _ _ stays ihφ ihψ => rw [simplify, ihφ, ihψ, stays]

/-- Flattening normal operands once is enough. -/
theorem Normal.of_mem_parts (normal : Normal φ) (member : χ ∈ kind.parts φ) :
    Normal χ ∧ kind.parts χ = [χ] := by
  rcases parts_cases kind φ with single | ⟨operands, rfl⟩
  · rw [single, List.mem_singleton] at member
    rw [member]
    exact ⟨normal, single⟩
  · rw [parts_junction] at member
    cases normal with
    | junction normal tidy => exact ⟨normal χ member, tidy.flat χ member⟩

theorem normal_of_mem_flat (normal : ∀ φ ∈ operands, Normal φ)
    (member : χ ∈ operands.flatMap kind.parts) : Normal χ ∧ kind.parts χ = [χ] := by
  obtain ⟨φ, present, part⟩ := List.mem_flatMap.mp member
  exact (normal φ present).of_mem_parts part

/-- Some operand decides the junction, or two operands contradict each other. -/
def Absorbed (kind : Junction) (operands : List Formula) : Prop :=
  kind.absorbing ∈ operands.flatMap kind.parts ∨ hasComplement (keptOperands kind operands) = true

theorem junctionOf_of_absorbed (absorbed : Absorbed kind operands) :
    junctionOf kind operands = kind.absorbing := by
  rw [junctionOf_eq]
  rcases absorbed with decided | complement
  · rw [if_pos decided]
  · rw [if_pos complement, ite_self]

theorem junctionOf_of_not_absorbed (proper : ¬ Absorbed kind operands) :
    junctionOf kind operands = closeJunction kind (keptOperands kind operands) := by
  obtain ⟨undecided, uncomplemented⟩ := not_or.mp proper
  rw [junctionOf_eq, if_neg undecided, if_neg uncomplemented]

theorem tidy_keptOperands (normal : ∀ φ ∈ operands, Normal φ) (proper : ¬ Absorbed kind operands) :
    Tidy kind (keptOperands kind operands) where
  increasing := increasing_sortOperands _
  flat _ member := (normal_of_mem_flat normal (mem_keptOperands.mp member).1).2
  undecided member := proper (Or.inl (mem_keptOperands.mp member).1)
  proper member := (mem_keptOperands.mp member).2 rfl
  uncomplemented := Bool.eq_false_iff.mpr fun complement => proper (Or.inr complement)

theorem normal_absorbing (kind : Junction) : Normal kind.absorbing := by
  cases kind with
  | all => exact .bot
  | any => exact .top

theorem normal_identity (kind : Junction) : Normal kind.identity := by
  cases kind with
  | all => exact .top
  | any => exact .bot

theorem normal_closeJunction (normal : ∀ φ ∈ operands, Normal φ) (tidy : Tidy kind operands) :
    Normal (closeJunction kind operands) := by
  match operands with
  | [] => exact normal_identity kind
  | [φ] => exact normal φ List.mem_cons_self
  | _ :: _ :: _ => exact .junction normal tidy (by simp)

theorem normal_junctionOf (kind : Junction) (normal : ∀ φ ∈ operands, Normal φ) :
    Normal (junctionOf kind operands) := by
  by_cases absorbed : Absorbed kind operands
  · rw [junctionOf_of_absorbed absorbed]
    exact normal_absorbing kind
  · rw [junctionOf_of_not_absorbed absorbed]
    refine normal_closeJunction ?_ (tidy_keptOperands normal absorbed)
    intro φ member
    exact (normal_of_mem_flat normal (mem_keptOperands.mp member).1).1

end Junctions

section Constructors

variable {φ ψ : Formula}

theorem nextOf_cases (φ : Formula) : nextOf φ = φ ∨ nextOf φ = next φ := by
  cases φ <;> simp [nextOf]

theorem eventuallyOf_cases (φ : Formula) : eventuallyOf φ = φ ∨ eventuallyOf φ = eventually φ := by
  cases φ <;> simp [eventuallyOf]

theorem alwaysOf_cases (φ : Formula) : alwaysOf φ = φ ∨ alwaysOf φ = always φ := by
  cases φ <;> simp [alwaysOf]

theorem size_negationOf_le (φ : Formula) : (negationOf φ).size ≤ φ.size + 1 := by
  induction φ with
  | bot | top | atom | junction | implies | strongUntil => simp [negationOf, size]
  | neg φ => simp only [negationOf, size]; omega
  | next φ ih =>
    rcases nextOf_cases (negationOf φ) with same | same <;> simp only [negationOf, same, size] <;>
      omega
  | eventually φ ih =>
    rcases alwaysOf_cases (negationOf φ) with same | same <;>
      simp only [negationOf, same, size] <;> omega
  | always φ ih =>
    rcases eventuallyOf_cases (negationOf φ) with same | same <;>
      simp only [negationOf, same, size] <;> omega

theorem normal_nextOf (normal : Normal φ) : Normal (nextOf φ) := by
  rcases nextOf_cases φ with same | stays
  · rwa [same]
  · rw [stays]
    exact .next normal stays

theorem normal_eventuallyOf (normal : Normal φ) : Normal (eventuallyOf φ) := by
  rcases eventuallyOf_cases φ with same | stays
  · rwa [same]
  · rw [stays]
    exact .eventually normal stays

theorem normal_alwaysOf (normal : Normal φ) : Normal (alwaysOf φ) := by
  rcases alwaysOf_cases φ with same | stays
  · rwa [same]
  · rw [stays]
    exact .always normal stays

theorem normal_negationOf (normal : Normal φ) : Normal (negationOf φ) := by
  induction normal with
  | bot => exact .top
  | top => exact .bot
  | neg normal => exact normal
  | next _ _ ih => exact normal_nextOf ih
  | eventually _ _ ih => exact normal_alwaysOf ih
  | always _ _ ih => exact normal_eventuallyOf ih
  | atom i => exact .neg (.atom i) rfl
  | junction normal tidy several => exact .neg (.junction normal tidy several) rfl
  | implies normalφ normalψ stays => exact .neg (.implies normalφ normalψ stays) rfl
  | strongUntil normalφ normalψ stays => exact .neg (.strongUntil normalφ normalψ stays) rfl

theorem impliesOf_cases (φ ψ : Formula) : impliesOf φ ψ = top ∨ impliesOf φ ψ = ψ ∨
    impliesOf φ ψ = negationOf φ ∨ impliesOf φ ψ = implies φ ψ := by
  fun_cases impliesOf φ ψ <;> simp

theorem untilOf_cases (φ ψ : Formula) : untilOf φ ψ = φ ∨ untilOf φ ψ = ψ ∨
    untilOf φ ψ = eventuallyOf ψ ∨ untilOf φ ψ = strongUntil φ ψ := by
  fun_cases untilOf φ ψ <;> simp_all [eventuallyOf]

theorem normal_impliesOf (normalφ : Normal φ) (normalψ : Normal ψ) : Normal (impliesOf φ ψ) := by
  rcases impliesOf_cases φ ψ with same | same | same | same
  · rw [same]; exact .top
  · rw [same]; exact normalψ
  · rw [same]; exact normal_negationOf normalφ
  · rw [same]; exact .implies normalφ normalψ same

theorem normal_untilOf (normalφ : Normal φ) (normalψ : Normal ψ) : Normal (untilOf φ ψ) := by
  rcases untilOf_cases φ ψ with same | same | same | same
  · rw [same]; exact normalφ
  · rw [same]; exact normalψ
  · rw [same]; exact normal_eventuallyOf normalψ
  · rw [same]; exact .strongUntil normalφ normalψ same

theorem negationOf_nextOf (φ : Formula) : negationOf (nextOf φ) = nextOf (negationOf φ) := by
  cases φ <;> rfl

theorem negationOf_eventuallyOf (φ : Formula) :
    negationOf (eventuallyOf φ) = alwaysOf (negationOf φ) := by
  cases φ <;> rfl

theorem negationOf_alwaysOf (φ : Formula) :
    negationOf (alwaysOf φ) = eventuallyOf (negationOf φ) := by
  cases φ <;> rfl

/-- On normal formulas negation is an involution. -/
theorem Normal.negationOf_negationOf (normal : Normal φ) : negationOf (negationOf φ) = φ := by
  induction normal with
  | bot | top | atom | junction | implies | strongUntil => rfl
  | neg _ stays => exact stays
  | next _ stays ih => rw [negationOf, negationOf_nextOf, ih, stays]
  | eventually _ stays ih => rw [negationOf, negationOf_alwaysOf, ih, stays]
  | always _ stays ih => rw [negationOf, negationOf_eventuallyOf, ih, stays]

theorem normal_simplify (φ : Formula) : Normal φ.simplify := by
  induction φ with
  | bot => rw [simplify]; exact .bot
  | top => rw [simplify]; exact .top
  | atom i => rw [simplify]; exact .atom i
  | neg φ ih => rw [simplify]; exact normal_negationOf ih
  | junction kind operands ih =>
    rw [simplify_junction]
    exact normal_junctionOf kind (List.forall_mem_map.mpr ih)
  | implies φ ψ ihφ ihψ => rw [simplify]; exact normal_impliesOf ihφ ihψ
  | next φ ih => rw [simplify]; exact normal_nextOf ih
  | eventually φ ih => rw [simplify]; exact normal_eventuallyOf ih
  | always φ ih => rw [simplify]; exact normal_alwaysOf ih
  | strongUntil φ ψ ihφ ihψ => rw [simplify]; exact normal_untilOf ihφ ihψ

end Constructors

end TemporalRewards.Formula
