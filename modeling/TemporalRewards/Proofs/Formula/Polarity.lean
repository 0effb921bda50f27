import TemporalRewards.Proofs.Formula.Progression

/-! What occurs in a formula below an even and what below an odd number of negations, a
premise counting as one. A negation turns eventually and always into each other, so
simplification and progression keep a law that allows both or neither of them, at
opposite polarities. -/
namespace TemporalRewards.Formula

/-- Where eventually and until may occur, by the polarity, which is `true` below an even
number of negations. Where an eventually may occur at one polarity, an always may occur at
the other. -/
structure Polarities where
  eventually : Bool → Prop
  strongUntil : Bool → Prop

/-- All that occurs in a formula at a polarity is allowed where it is. -/
inductive Respects (law : Polarities) : Bool → Formula → Prop where
  | bot {b} : Respects law b bot
  | top {b} : Respects law b top
  | atom {b i} : Respects law b (atom i)
  | neg {b φ} : Respects law (!b) φ → Respects law b (neg φ)
  | junction {b kind operands} : (∀ φ ∈ operands, Respects law b φ) →
      Respects law b (junction kind operands)
  | implies {b φ ψ} : Respects law (!b) φ → Respects law b ψ → Respects law b (implies φ ψ)
  | next {b φ} : Respects law b φ → Respects law b (next φ)
  | eventually {b φ} : law.eventually b → Respects law b φ → Respects law b (eventually φ)
  | always {b φ} : law.eventually (!b) → Respects law b φ → Respects law b (always φ)
  | strongUntil {b φ ψ} : law.strongUntil b → Respects law b φ → Respects law b ψ →
      Respects law b (strongUntil φ ψ)

/-- Obligations that are open until something happens: eventually at even and always at odd
polarity only, and until where it is allowed. -/
def Polarities.coSafety (untils : Bool → Prop) : Polarities := ⟨(· = true), untils⟩

section Respects

variable {law : Polarities} {b : Bool} {φ ψ : Formula} {kind : Junction} {operands : List Formula}

/-- What a law allows a wider one allows too. -/
theorem Respects.mono {law' : Polarities} (respects : Respects law b φ)
    (eventually : ∀ b, law.eventually b → law'.eventually b)
    (strongUntil : ∀ b, law.strongUntil b → law'.strongUntil b) : Respects law' b φ := by
  induction respects with
  | bot => exact .bot
  | top => exact .top
  | atom => exact .atom
  | neg _ ih => exact .neg ih
  | junction _ ih => exact .junction ih
  | implies _ _ ihφ ihψ => exact .implies ihφ ihψ
  | next _ ih => exact .next ih
  | eventually allowed _ ih => exact .eventually (eventually _ allowed) ih
  | always allowed _ ih => exact .always (eventually _ allowed) ih
  | strongUntil allowed _ _ ihφ ihψ => exact .strongUntil (strongUntil _ allowed) ihφ ihψ

theorem respects_ofBool (value : Bool) : Respects law b (ofBool value) := by
  cases value with
  | false => exact .bot
  | true => exact .top

theorem respects_junction :
    Respects law b (junction kind operands) ↔ ∀ φ ∈ operands, Respects law b φ := by
  constructor
  · rintro (_ | _ | _ | _ | each)
    exact each
  · exact .junction

theorem respects_nextOf (respects : Respects law b φ) : Respects law b (nextOf φ) := by
  rcases nextOf_cases φ with same | same <;> rw [same]
  · exact respects
  · exact .next respects

theorem respects_eventuallyOf (allowed : law.eventually b) (respects : Respects law b φ) :
    Respects law b (eventuallyOf φ) := by
  rcases eventuallyOf_cases φ with same | same <;> rw [same]
  · exact respects
  · exact .eventually allowed respects

theorem respects_alwaysOf (allowed : law.eventually (!b)) (respects : Respects law b φ) :
    Respects law b (alwaysOf φ) := by
  rcases alwaysOf_cases φ with same | same <;> rw [same]
  · exact respects
  · exact .always allowed respects

/-- A negation turns the polarity over, and eventually and always with it. -/
theorem respects_negationOf (respects : Respects law b φ) : Respects law (!b) (negationOf φ) := by
  induction respects with
  | bot => exact .top
  | top => exact .bot
  | neg respects => rwa [negationOf]
  | next _ ih => exact respects_nextOf ih
  | eventually allowed _ ih => exact respects_alwaysOf (by rwa [Bool.not_not]) ih
  | always allowed _ ih => exact respects_eventuallyOf allowed ih
  | atom => exact .neg .atom
  | junction each => exact .neg (by rw [Bool.not_not]; exact .junction each)
  | implies premise conclusion =>
    exact .neg (by rw [Bool.not_not]; exact .implies premise conclusion)
  | strongUntil allowed left right =>
    exact .neg (by rw [Bool.not_not]; exact .strongUntil allowed left right)

theorem respects_junctionOf (each : ∀ φ ∈ operands, Respects law b φ) :
    Respects law b (junctionOf kind operands) :=
  junctionOf_of_forall respects_ofBool (fun _ _ => respects_junction) each

theorem respects_impliesOf (premise : Respects law (!b) φ) (conclusion : Respects law b ψ) :
    Respects law b (impliesOf φ ψ) := by
  rcases impliesOf_cases φ ψ with same | same | same | same <;> rw [same]
  · exact .top
  · exact conclusion
  · simpa only [Bool.not_not] using respects_negationOf premise
  · exact .implies premise conclusion

/-- What is reached without a condition is an eventually. -/
theorem respects_untilOf (allowed : law.strongUntil b) (unconditional : law.eventually b)
    (left : Respects law b φ) (right : Respects law b ψ) : Respects law b (untilOf φ ψ) := by
  rcases untilOf_cases φ ψ with same | same | same | same <;> rw [same]
  · exact left
  · exact right
  · exact respects_eventuallyOf unconditional right
  · exact .strongUntil allowed left right

/-- Simplification keeps the law, if it allows every eventually that an until can become. -/
theorem Respects.simplify (untils : ∀ b, law.strongUntil b → law.eventually b)
    (respects : Respects law b φ) : Respects law b φ.simplify := by
  induction respects with
  | bot => rw [Formula.simplify]; exact .bot
  | top => rw [Formula.simplify]; exact .top
  | atom => rw [Formula.simplify]; exact .atom
  | @neg b _ _ ih =>
    rw [Formula.simplify]
    simpa only [Bool.not_not] using respects_negationOf ih
  | junction _ ih =>
    rw [simplify_junction]
    exact respects_junctionOf (List.forall_mem_map.mpr ih)
  | implies _ _ ihφ ihψ => rw [Formula.simplify]; exact respects_impliesOf ihφ ihψ
  | next _ ih => rw [Formula.simplify]; exact respects_nextOf ih
  | eventually allowed _ ih => rw [Formula.simplify]; exact respects_eventuallyOf allowed ih
  | always allowed _ ih => rw [Formula.simplify]; exact respects_alwaysOf allowed ih
  | @strongUntil b _ _ allowed _ _ ihφ ihψ =>
    rw [Formula.simplify]
    exact respects_untilOf allowed (untils b allowed) ihφ ihψ

/-- Progression copies what is there, each part at its polarity. -/
theorem Respects.progress (respects : Respects law b φ) (normal : Normal φ) (o : Observation) :
    Respects law b (φ.progress o) := by
  induction normal generalizing b with
  | bot => exact .bot
  | top => exact .top
  | atom i => exact respects_ofBool _
  | neg _ _ ih =>
    cases respects with
    | neg respects =>
      rw [progress_neg]
      simpa only [Bool.not_not] using respects_negationOf (ih respects)
  | junction _ _ _ ih =>
    rw [progress_junction]
    have each := respects_junction.mp respects
    exact respects_junctionOf (List.forall_mem_map.mpr fun φ member => ih φ member (each φ member))
  | implies _ _ _ ihφ ihψ =>
    cases respects with
    | implies premise conclusion =>
      rw [progress_implies]
      exact respects_impliesOf (ihφ premise) (ihψ conclusion)
  | next normal =>
    cases respects with
    | next respects => rwa [progress_next normal]
  | eventually normal stays ih =>
    cases respects with
    | eventually allowed respects =>
      rw [progress_eventually (.eventually normal stays)]
      exact respects_junctionOf
        (forall_mem_pair.mpr ⟨ih respects, .eventually allowed respects⟩)
  | always normal stays ih =>
    cases respects with
    | always allowed respects =>
      rw [progress_always (.always normal stays)]
      exact respects_junctionOf (forall_mem_pair.mpr ⟨ih respects, .always allowed respects⟩)
  | strongUntil normalφ normalψ stays ihφ ihψ =>
    cases respects with
    | strongUntil allowed left right =>
      rw [progress_strongUntil (.strongUntil normalφ normalψ stays)]
      exact respects_junctionOf (forall_mem_pair.mpr ⟨ihψ right, respects_junctionOf
        (forall_mem_pair.mpr ⟨ihφ left, .strongUntil allowed left right⟩)⟩)

end Respects

end TemporalRewards.Formula
