import TemporalRewards.Proofs.Formula.Satisfaction

/-! Linear temporal logic read at the positions of one behaviour. A formula holds at a
position just when the behaviour from there on satisfies it, so simplification keeps
what a formula says at every position. -/
namespace TemporalRewards.Formula

/-- Satisfaction at a position of a behaviour; until is strong. -/
def HoldsAt (σ : Behaviour) : Formula → Nat → Prop
  | bot, _ => False
  | top, _ => True
  | atom p, i => (σ i).get p = true
  | neg φ, i => ¬ HoldsAt σ φ i
  | junction .all operands, i => ∀ φ ∈ operands, HoldsAt σ φ i
  | junction .any operands, i => ∃ φ, ∃ _ : φ ∈ operands, HoldsAt σ φ i
  | implies φ ψ, i => HoldsAt σ φ i → HoldsAt σ ψ i
  | next φ, i => HoldsAt σ φ (i + 1)
  | eventually φ, i => ∃ j ≥ i, HoldsAt σ φ j
  | always φ, i => ∀ j ≥ i, HoldsAt σ φ j
  | strongUntil φ ψ, i => ∃ j ≥ i, HoldsAt σ ψ j ∧ ∀ k, i ≤ k → k < j → HoldsAt σ φ k

variable {σ : Behaviour} {i : Nat} {φ ψ : Formula} {p : Nat → Prop}

theorem exists_ge_iff : (∃ j ≥ i, p j) ↔ ∃ n, p (i + n) := by
  constructor
  · rintro ⟨j, later, holds⟩
    refine ⟨j - i, ?_⟩
    rwa [Nat.add_sub_cancel' later]
  · rintro ⟨n, holds⟩
    exact ⟨i + n, Nat.le_add_right i n, holds⟩

theorem forall_ge_iff : (∀ j ≥ i, p j) ↔ ∀ n, p (i + n) := by
  constructor
  · intro every n
    exact every (i + n) (Nat.le_add_right i n)
  · intro every j later
    rw [← Nat.add_sub_cancel' later]
    exact every (j - i)

/-- The positions from `i` up to `i + n` are the first `n` of the rest. -/
theorem forall_between_iff {n : Nat} : (∀ k, i ≤ k → k < i + n → p k) ↔ ∀ k < n, p (i + k) := by
  constructor
  · intro every k less
    exact every (i + k) (Nat.le_add_right i k) (Nat.add_lt_add_left less i)
  · intro every k later less
    rw [← Nat.add_sub_cancel' later]
    exact every (k - i) (by omega)

/-- What holds at a position is what the behaviour from there on satisfies. -/
theorem holdsAt_iff_satisfies_drop : φ.HoldsAt σ i ↔ φ.Satisfies (σ.drop i) := by
  induction φ generalizing i with
  | bot => rw [HoldsAt, Satisfies]
  | top => rw [HoldsAt, Satisfies]
  | atom p => rw [HoldsAt, Satisfies, Behaviour.drop_apply, Nat.add_zero]
  | neg φ ih => rw [HoldsAt, ih, satisfies_neg]
  | junction kind operands ih =>
    rw [satisfies_junction]
    cases kind with
    | all =>
      rw [HoldsAt]
      exact forall₂_congr fun φ member => ih φ member
    | any =>
      rw [HoldsAt]
      simp only [exists_prop]
      exact exists_congr fun φ => and_congr_right fun member => ih φ member
  | implies φ ψ ihφ ihψ => rw [HoldsAt, ihφ, ihψ, satisfies_implies]
  | next φ ih => rw [HoldsAt, ih, satisfies_next, Behaviour.drop_drop]
  | eventually φ ih => simp only [HoldsAt, ih, satisfies_eventually, Behaviour.drop_drop, exists_ge_iff]
  | always φ ih => simp only [HoldsAt, ih, satisfies_always, Behaviour.drop_drop, forall_ge_iff]
  | strongUntil φ ψ ihφ ihψ =>
    simp only [HoldsAt, ihφ, ihψ, satisfies_strongUntil, Behaviour.drop_drop, exists_ge_iff,
      forall_between_iff]

/-- Simplification keeps what every formula says, at every position of every behaviour. -/
theorem holdsAt_simplify : φ.simplify.HoldsAt σ i ↔ φ.HoldsAt σ i := by
  rw [holdsAt_iff_satisfies_drop, satisfies_simplify, holdsAt_iff_satisfies_drop]

end TemporalRewards.Formula
