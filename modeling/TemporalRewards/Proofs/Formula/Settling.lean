import TemporalRewards.Proofs.Formula.Progression

/-! Formulas that a bounded number of observations settles, whatever they are. Where
next is the only temporal operator, how deep it is nested bounds the number. -/
namespace TemporalRewards.Formula

/-- Nothing is left to be observed. -/
def IsConstant (φ : Formula) : Prop := ∃ b, φ = ofBool b

theorem isConstant_iff {φ : Formula} : φ.IsConstant ↔ φ = bot ∨ φ = top :=
  Bool.exists_bool

instance (φ : Formula) : Decidable φ.IsConstant := decidable_of_iff' _ isConstant_iff

section Constants

variable {φ ψ : Formula} {kind : Junction} {operands : List Formula}

theorem progress_ofBool (b : Bool) (o : Observation) : (ofBool b).progress o = ofBool b := by
  cases b <;> rfl

theorem after_ofBool (b : Bool) (os : List Observation) : (ofBool b).after os = ofBool b := by
  induction os with
  | nil => rfl
  | cons o rest ih =>
    rw [after, List.foldl_cons, progress_ofBool]
    exact ih

theorem IsConstant.after (constant : IsConstant φ) (os : List Observation) :
    IsConstant (φ.after os) := by
  obtain ⟨b, rfl⟩ := constant
  exact ⟨b, after_ofBool b os⟩

theorem not_constant_of_temporal (temporal : φ.isTemporal = true) : ¬ IsConstant φ := by
  rintro ⟨_ | _, rfl⟩ <;> contradiction

theorem not_absorbed_of_not_constant (varying : ¬ IsConstant (junctionOf kind operands)) :
    ¬ Absorbed kind operands := by
  intro absorbed
  apply varying
  rw [junctionOf_of_absorbed absorbed]
  exact absorbing_eq_ofBool kind

/-- An implication that is not decided is all that is left of it once a side is. -/
theorem impliesOf_of_not_constant (varying : ¬ IsConstant (impliesOf φ ψ)) :
    φ = top ∧ impliesOf φ ψ = ψ ∨ ψ = bot ∧ impliesOf φ ψ = negationOf φ ∨
      impliesOf φ ψ = implies φ ψ := by
  revert varying
  fun_cases impliesOf φ ψ with
  | case1 | case2 | case5 => exact absurd ⟨true, rfl⟩
  | case3 => exact fun _ => Or.inl ⟨rfl, rfl⟩
  | case4 => exact fun _ => Or.inr (Or.inl ⟨rfl, rfl⟩)
  | case6 => exact fun _ => Or.inr (Or.inr rfl)

/-! Where a constructor keeps what it is given. -/

theorem nextOf_eq_next_iff : nextOf φ = next φ ↔ ¬ IsConstant φ := by
  rw [isConstant_iff]
  cases φ <;> simp [nextOf]

theorem eventuallyOf_eq_eventually_iff : eventuallyOf φ = eventually φ ↔ ¬ IsConstant φ := by
  rw [isConstant_iff]
  cases φ <;> simp [eventuallyOf]

theorem alwaysOf_eq_always_iff : alwaysOf φ = always φ ↔ ¬ IsConstant φ := by
  rw [isConstant_iff]
  cases φ <;> simp [alwaysOf]

theorem impliesOf_eq_implies_iff :
    impliesOf φ ψ = implies φ ψ ↔ ¬ IsConstant φ ∧ ¬ IsConstant ψ ∧ φ ≠ ψ := by
  simp only [isConstant_iff]
  fun_cases impliesOf φ ψ with
  | case1 | case2 => simp
  | case3 => exact iff_of_false (ne_of_size_lt (by simp only [size]; omega)) (by simp)
  | case4 =>
    have bound := size_negationOf_le φ
    exact iff_of_false (ne_of_size_lt (by simp only [size]; omega)) (by simp)
  | case5 | case6 => simp_all

theorem untilOf_eq_strongUntil_iff :
    untilOf φ ψ = strongUntil φ ψ ↔ ¬ IsConstant φ ∧ ¬ IsConstant ψ ∧ φ ≠ ψ := by
  simp only [isConstant_iff]
  fun_cases untilOf φ ψ with
  | case1 | case2 | case4 => simp
  | case3 | case5 => exact iff_of_false (ne_of_size_lt (by simp only [size]; omega)) (by simp)
  | case6 => simp_all

end Constants

/-- Any `n` observations leave a constant. -/
def SettledBy (n : Nat) (φ : Formula) : Prop :=
  ∀ os : List Observation, os.length = n → ∃ b, φ.after os = ofBool b

section SettledBy

variable {φ : Formula} {m n : Nat}

theorem settledBy_zero : SettledBy 0 φ ↔ ∃ b, φ = ofBool b := by
  constructor
  · intro settled
    exact settled [] rfl
  · rintro settled os none
    rw [List.length_eq_zero_iff.mp none]
    exact settled

theorem settledBy_succ : SettledBy (n + 1) φ ↔ ∀ o, SettledBy n (φ.progress o) := by
  constructor
  · intro settled o os length
    exact settled (o :: os) (by rw [List.length_cons, length])
  · intro settled os length
    match os with
    | o :: rest => exact settled o rest (Nat.succ.inj length)

theorem settledBy_ofBool (n : Nat) (b : Bool) : SettledBy n (ofBool b) :=
  fun os _ => ⟨b, after_ofBool b os⟩

theorem SettledBy.succ (settled : SettledBy n φ) : SettledBy (n + 1) φ := by
  induction n generalizing φ with
  | zero =>
    obtain ⟨b, rfl⟩ := settledBy_zero.mp settled
    exact settledBy_ofBool 1 b
  | succ n ih =>
    apply settledBy_succ.mpr
    intro o
    exact ih (settledBy_succ.mp settled o)

theorem SettledBy.mono (settled : SettledBy m φ) (less : m ≤ n) : SettledBy n φ := by
  induction less with
  | refl => exact settled
  | step _ ih => exact ih.succ

theorem SettledBy.progress (settled : SettledBy n φ) (o : Observation) :
    SettledBy (n - 1) (φ.progress o) := by
  cases n with
  | zero =>
    obtain ⟨b, rfl⟩ := settledBy_zero.mp settled
    rw [progress_ofBool]
    exact settled
  | succ n => exact settledBy_succ.mp settled o

end SettledBy

/-- No temporal operator but next occurs, and atoms lie below fewer than `n` of them. -/
inductive Within : Nat → Formula → Prop where
  | bot {n} : Within n bot
  | top {n} : Within n top
  | atom {n} (i) : Within (n + 1) (atom i)
  | neg {n φ} : Within n φ → Within n (neg φ)
  | junction {n kind operands} : (∀ φ ∈ operands, Within n φ) → Within n (junction kind operands)
  | implies {n φ ψ} : Within n φ → Within n ψ → Within n (implies φ ψ)
  | next {n φ} : Within n φ → Within (n + 1) (next φ)

section Within

variable {φ ψ : Formula} {kind : Junction} {operands : List Formula} {n : Nat}

theorem within_ofBool (b : Bool) : Within n (ofBool b) := by
  cases b with
  | false => exact .bot
  | true => exact .top

theorem within_nextOf (within : Within n φ) : Within (n + 1) (nextOf φ) := by
  cases φ with
  | bot => exact .bot
  | top => exact .top
  | _ => exact .next within

theorem within_negationOf (within : Within n φ) : Within n (negationOf φ) := by
  induction within with
  | bot => exact .top
  | top => exact .bot
  | atom i => exact .neg (.atom i)
  | neg within => exact within
  | junction within => exact .neg (.junction within)
  | implies withinφ withinψ => exact .neg (.implies withinφ withinψ)
  | next _ ih => exact within_nextOf ih

theorem within_junction : Within n (junction kind operands) ↔ ∀ φ ∈ operands, Within n φ := by
  constructor
  · intro within
    cases within with
    | junction within => exact within
  · exact .junction

theorem within_impliesOf (withinφ : Within n φ) (withinψ : Within n ψ) :
    Within n (impliesOf φ ψ) := by
  rcases impliesOf_cases φ ψ with same | same | same | same
  · rw [same]; exact .top
  · rw [same]; exact withinψ
  · rw [same]; exact within_negationOf withinφ
  · rw [same]; exact .implies withinφ withinψ

/-- An observation takes one level of next away. -/
theorem Within.progress (within : Within (n + 1) φ) (normal : Normal φ) (o : Observation) :
    Within n (φ.progress o) := by
  induction normal with
  | bot => exact .bot
  | top => exact .top
  | atom i => exact within_ofBool _
  | neg _ _ ih =>
    cases within with
    | neg within =>
      rw [progress_neg]
      exact within_negationOf (ih within)
  | junction _ _ _ ih =>
    cases within with
    | junction within =>
      rw [progress_junction]
      exact junctionOf_of_forall within_ofBool (fun _ _ => within_junction)
        (List.forall_mem_map.mpr fun φ member => ih φ member (within φ member))
  | implies _ _ _ ihφ ihψ =>
    cases within with
    | implies withinφ withinψ =>
      rw [progress_implies]
      exact within_impliesOf (ihφ withinφ) (ihψ withinψ)
  | next normal _ _ =>
    cases within with
    | next within => rwa [progress_next normal]
  | eventually | always | strongUntil => contradiction

/-- A normal formula without atoms and temporal operators is a constant. -/
theorem Within.eq_ofBool (within : Within 0 φ) (normal : Normal φ) : ∃ b, φ = ofBool b := by
  induction normal with
  | bot => exact ⟨false, rfl⟩
  | top => exact ⟨true, rfl⟩
  | neg _ stays ih =>
    cases within with
    | neg within =>
      obtain ⟨b, rfl⟩ := ih within
      rw [negationOf_ofBool] at stays
      exact ⟨!b, stays.symm⟩
  | @junction kind operands _ tidy several ih =>
    cases within with
    | junction within =>
      match operands, several with
      | φ :: _, _ =>
        obtain ⟨b, constant⟩ := ih φ List.mem_cons_self (within φ List.mem_cons_self)
        have decided := tidy.undecided
        have empty := tidy.proper
        rw [constant] at decided empty
        cases kind <;> cases b <;>
          simp [Junction.absorbing, Junction.identity, ofBool] at decided empty
  | implies _ _ stays ihφ ihψ =>
    cases within with
    | implies withinφ withinψ =>
      obtain ⟨a, rfl⟩ := ihφ withinφ
      obtain ⟨b, rfl⟩ := ihψ withinψ
      rw [impliesOf_ofBool] at stays
      exact ⟨!a || b, stays.symm⟩
  | atom | next | eventually | always | strongUntil => contradiction

/-- Where next is the only temporal operator, its depth bounds how many observations
settle the formula. -/
theorem Within.settledBy (within : Within n φ) (normal : Normal φ) : SettledBy n φ := by
  induction n generalizing φ with
  | zero => exact settledBy_zero.mpr (within.eq_ofBool normal)
  | succ n ih =>
    apply settledBy_succ.mpr
    intro o
    exact ih (within.progress normal o) (normal_progress φ o)

end Within

end TemporalRewards.Formula
