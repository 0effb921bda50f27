import TemporalRewards.Proofs.Formula.Normal

/-! Negation in front of the operators with one operand. Two negations cancel, and a
negation passes next, eventually and always, of which the last two trade places. Formulas
that differ in where the negations of a chain of such operators stand are simplified to the
same formula. -/
namespace TemporalRewards.Formula

/-- The operators with one operand. -/
inductive Unary
  | neg
  | next
  | eventually
  | always
deriving DecidableEq, Repr

namespace Unary

def apply : Unary → Formula → Formula
  | neg => .neg
  | next => .next
  | eventually => .eventually
  | always => .always

/-- The operator behind a negation that has passed it. -/
def dual : Unary → Unary
  | neg => neg
  | next => next
  | eventually => always
  | always => eventually

end Unary

/-- A formula below operators, the outermost first. -/
def chain (operators : List Unary) (φ : Formula) : Formula := operators.foldr Unary.apply φ

/-- The chain with its negations moved inward, where two cancel. `negated` tells whether
one is on its way. -/
def inward (φ : Formula) : Bool → List Unary → Formula
  | false, [] => φ
  | true, [] => neg φ
  | negated, .neg :: rest => inward φ (!negated) rest
  | false, operator :: rest => operator.apply (inward φ false rest)
  | true, operator :: rest => operator.dual.apply (inward φ true rest)

variable {φ ψ : Formula}

theorem simplify_neg_neg (φ : Formula) : (neg (neg φ)).simplify = φ.simplify := by
  rw [simplify, simplify, (normal_simplify φ).negationOf_negationOf]

theorem simplify_neg_apply (operator : Unary) (φ : Formula) :
    (neg (operator.apply φ)).simplify = (operator.dual.apply (neg φ)).simplify := by
  cases operator with
  | neg => rfl
  | next => simp only [Unary.apply, Unary.dual, simplify, negationOf_nextOf]
  | eventually => simp only [Unary.apply, Unary.dual, simplify, negationOf_eventuallyOf]
  | always => simp only [Unary.apply, Unary.dual, simplify, negationOf_alwaysOf]

theorem simplify_apply_congr (operator : Unary) (same : φ.simplify = ψ.simplify) :
    (operator.apply φ).simplify = (operator.apply ψ).simplify := by
  cases operator <;> simp only [Unary.apply, simplify, same]

/-- Moving all negations inward changes nothing, with a negation in front of the chain or
without one. -/
theorem simplify_inward (φ : Formula) (operators : List Unary) :
    (chain operators φ).simplify = (inward φ false operators).simplify ∧
      (neg (chain operators φ)).simplify = (inward φ true operators).simplify := by
  induction operators with
  | nil => exact ⟨rfl, rfl⟩
  | cons operator rest ih =>
    obtain ⟨plain, negated⟩ := ih
    have passes (operator : Unary) : (neg (operator.apply (chain rest φ))).simplify =
        (operator.dual.apply (inward φ true rest)).simplify :=
      (simplify_neg_apply operator _).trans (simplify_apply_congr operator.dual negated)
    cases operator with
    | neg => exact ⟨negated, (simplify_neg_neg _).trans plain⟩
    | next => exact ⟨simplify_apply_congr .next plain, passes .next⟩
    | eventually => exact ⟨simplify_apply_congr .eventually plain, passes .eventually⟩
    | always => exact ⟨simplify_apply_congr .always plain, passes .always⟩

/-- Negation is canonical in front of the operators with one operand: twice it is left out,
and it stands behind next, eventually and always, however many of them follow one another.
An eventually that is written as an until is simplified to an eventually. -/
theorem simplify_duality (φ : Formula) :
    (neg (neg φ)).simplify = φ.simplify ∧
      (neg (next φ)).simplify = (next (neg φ)).simplify ∧
      (neg (eventually φ)).simplify = (always (neg φ)).simplify ∧
      (neg (always φ)).simplify = (eventually (neg φ)).simplify ∧
      (strongUntil top φ).simplify = (eventually φ).simplify ∧
      ∀ operators, (chain operators φ).simplify = (inward φ false operators).simplify := by
  have whole : (strongUntil top φ).simplify = (eventually φ).simplify := by
    simp only [simplify]
    cases φ.simplify <;> rfl
  exact ⟨simplify_neg_neg φ, simplify_neg_apply .next φ, simplify_neg_apply .eventually φ,
    simplify_neg_apply .always φ, whole, fun operators => (simplify_inward φ operators).1⟩

/-- Four negations between the operators of `not G not X F not not a`: two come to cancel, and
then the others do. -/
example : chain [.neg, .always, .neg, .next, .eventually, .neg, .neg] (atom 0) =
      neg (always (neg (next (eventually (neg (neg (atom 0))))))) ∧
    inward (atom 0) false [.neg, .always, .neg, .next, .eventually, .neg, .neg] =
      eventually (next (eventually (atom 0))) := ⟨rfl, rfl⟩

end TemporalRewards.Formula
