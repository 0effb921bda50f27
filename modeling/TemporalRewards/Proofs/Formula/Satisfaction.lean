import TemporalRewards.Proofs.Formula.Operands

/-! Linear temporal logic over infinite behaviours, and the two rewritings of
formulas against it. Simplification keeps the meaning of a formula; progression
through the first observation leaves the obligation on the rest. -/
namespace TemporalRewards

/-- One observation for every tick from now on. -/
abbrev Behaviour := Nat → Observation

/-- The behaviour without its first `n` observations. -/
def Behaviour.drop (σ : Behaviour) (n : Nat) : Behaviour := fun i => σ (n + i)

namespace Behaviour

@[simp] theorem drop_apply (σ : Behaviour) (n i : Nat) : σ.drop n i = σ (n + i) := rfl

@[simp] theorem drop_zero (σ : Behaviour) : σ.drop 0 = σ := by
  funext i
  rw [drop_apply, Nat.zero_add]

@[simp] theorem drop_drop (σ : Behaviour) (m n : Nat) : (σ.drop m).drop n = σ.drop (m + n) := by
  funext i
  simp only [drop_apply, Nat.add_assoc]

end Behaviour

namespace Formula

mutual

/-- Satisfaction at the start of a behaviour; until is strong. -/
def Satisfies : Formula → Behaviour → Prop
  | bot, _ => False
  | top, _ => True
  | atom i, σ => (σ 0).get i = true
  | neg φ, σ => ¬ φ.Satisfies σ
  | junction .all operands, σ => SatisfiesEvery operands σ
  | junction .any operands, σ => SatisfiesSome operands σ
  | implies φ ψ, σ => φ.Satisfies σ → ψ.Satisfies σ
  | next φ, σ => φ.Satisfies (σ.drop 1)
  | eventually φ, σ => ∃ n, φ.Satisfies (σ.drop n)
  | always φ, σ => ∀ n, φ.Satisfies (σ.drop n)
  | strongUntil φ ψ, σ => ∃ n, ψ.Satisfies (σ.drop n) ∧ ∀ k < n, φ.Satisfies (σ.drop k)

def SatisfiesEvery : List Formula → Behaviour → Prop
  | [], _ => True
  | φ :: rest, σ => φ.Satisfies σ ∧ SatisfiesEvery rest σ

def SatisfiesSome : List Formula → Behaviour → Prop
  | [], _ => False
  | φ :: rest, σ => φ.Satisfies σ ∨ SatisfiesSome rest σ

end

theorem satisfiesEvery_iff {operands : List Formula} {σ : Behaviour} :
    SatisfiesEvery operands σ ↔ ∀ φ ∈ operands, φ.Satisfies σ := by
  induction operands with
  | nil => simp [SatisfiesEvery]
  | cons φ rest ih => rw [SatisfiesEvery, ih, List.forall_mem_cons]

theorem satisfiesSome_iff {operands : List Formula} {σ : Behaviour} :
    SatisfiesSome operands σ ↔ ∃ φ ∈ operands, φ.Satisfies σ := by
  induction operands with
  | nil => simp [SatisfiesSome]
  | cons φ rest ih => simp only [SatisfiesSome, ih, List.mem_cons, exists_eq_or_imp]

end Formula

namespace Junction

variable {kind : Junction} {p q : Formula → Prop} {operands : List Formula}

/-- What a junction says of its operands, for any reading of the operands. -/
def Holds (p : Formula → Prop) : Junction → List Formula → Prop
  | all, operands => ∀ φ ∈ operands, p φ
  | any, operands => ∃ φ ∈ operands, p φ

theorem holds_congr (h : ∀ φ ∈ operands, (p φ ↔ q φ)) :
    kind.Holds p operands ↔ kind.Holds q operands := by
  cases kind with
  | all => exact forall₂_congr h
  | any => exact exists_congr fun φ => and_congr_right (h φ)

theorem holds_map {f : Formula → Formula} :
    kind.Holds p (operands.map f) ↔ kind.Holds (fun φ => p (f φ)) operands := by
  cases kind with
  | all => exact List.forall_mem_map
  | any => simp only [Holds, List.mem_map]; grind

theorem holds_flatMap {f : Formula → List Formula} :
    kind.Holds p (operands.flatMap f) ↔ kind.Holds (fun φ => kind.Holds p (f φ)) operands := by
  cases kind <;> simp only [Holds, List.mem_flatMap] <;> grind

end Junction

namespace Formula

variable {σ : Behaviour}

@[simp] theorem not_satisfies_bot : ¬ bot.Satisfies σ := by simp [Satisfies]

@[simp] theorem satisfies_top : top.Satisfies σ := by simp [Satisfies]

@[simp] theorem satisfies_neg {φ : Formula} : (neg φ).Satisfies σ ↔ ¬ φ.Satisfies σ := by
  rw [Satisfies]

@[simp] theorem satisfies_junction {kind : Junction} {operands : List Formula} :
    (junction kind operands).Satisfies σ ↔ kind.Holds (·.Satisfies σ) operands := by
  cases kind with
  | all => exact satisfiesEvery_iff
  | any => exact satisfiesSome_iff

@[simp] theorem satisfies_implies {φ ψ : Formula} :
    (implies φ ψ).Satisfies σ ↔ (φ.Satisfies σ → ψ.Satisfies σ) := by
  rw [Satisfies]

@[simp] theorem satisfies_next {φ : Formula} : (next φ).Satisfies σ ↔ φ.Satisfies (σ.drop 1) := by
  rw [Satisfies]

@[simp] theorem satisfies_eventually {φ : Formula} :
    (eventually φ).Satisfies σ ↔ ∃ n, φ.Satisfies (σ.drop n) := by
  rw [Satisfies]

@[simp] theorem satisfies_always {φ : Formula} :
    (always φ).Satisfies σ ↔ ∀ n, φ.Satisfies (σ.drop n) := by
  rw [Satisfies]

@[simp] theorem satisfies_strongUntil {φ ψ : Formula} :
    (strongUntil φ ψ).Satisfies σ ↔
      ∃ n, ψ.Satisfies (σ.drop n) ∧ ∀ k < n, φ.Satisfies (σ.drop k) := by
  rw [Satisfies]

/-- An eventual obligation is met now or from the next tick on. -/
theorem satisfies_eventually_step {φ : Formula} :
    (eventually φ).Satisfies σ ↔ φ.Satisfies σ ∨ (eventually φ).Satisfies (σ.drop 1) := by
  simp only [satisfies_eventually, Behaviour.drop_drop]
  constructor
  · rintro ⟨n, holds⟩
    cases n with
    | zero =>
      left
      rwa [Behaviour.drop_zero] at holds
    | succ n =>
      right
      exact ⟨n, by rwa [Nat.add_comm]⟩
  · rintro (holds | ⟨n, holds⟩)
    · exact ⟨0, by rwa [Behaviour.drop_zero]⟩
    · exact ⟨1 + n, holds⟩

theorem satisfies_always_step {φ : Formula} :
    (always φ).Satisfies σ ↔ φ.Satisfies σ ∧ (always φ).Satisfies (σ.drop 1) := by
  simp only [satisfies_always, Behaviour.drop_drop]
  constructor
  · intro holds
    have now := holds 0
    rw [Behaviour.drop_zero] at now
    exact ⟨now, fun n => holds (1 + n)⟩
  · rintro ⟨now, later⟩ n
    cases n with
    | zero => rwa [Behaviour.drop_zero]
    | succ n => rw [Nat.add_comm]; exact later n

theorem satisfies_strongUntil_step {φ ψ : Formula} :
    (strongUntil φ ψ).Satisfies σ ↔
      ψ.Satisfies σ ∨ φ.Satisfies σ ∧ (strongUntil φ ψ).Satisfies (σ.drop 1) := by
  simp only [satisfies_strongUntil, Behaviour.drop_drop]
  constructor
  · rintro ⟨n, reached, before⟩
    cases n with
    | zero =>
      left
      rwa [Behaviour.drop_zero] at reached
    | succ n =>
      right
      have first := before 0 (Nat.succ_pos n)
      rw [Behaviour.drop_zero] at first
      refine ⟨first, n, ?_, ?_⟩
      · rwa [Nat.add_comm]
      · intro k less
        rw [Nat.add_comm]
        exact before (k + 1) (by omega)
  · rintro (reached | ⟨first, n, reached, before⟩)
    · exact ⟨0, by rwa [Behaviour.drop_zero], fun k less => by omega⟩
    · refine ⟨1 + n, reached, ?_⟩
      intro k less
      cases k with
      | zero => rwa [Behaviour.drop_zero]
      | succ k => rw [Nat.add_comm]; exact before k (by omega)

/-! Each simplifying constructor means what the plain one does. -/

theorem satisfies_nextOf {φ : Formula} : (nextOf φ).Satisfies σ ↔ φ.Satisfies (σ.drop 1) := by
  cases φ <;> simp [nextOf]

theorem satisfies_eventuallyOf {φ : Formula} :
    (eventuallyOf φ).Satisfies σ ↔ ∃ n, φ.Satisfies (σ.drop n) := by
  cases φ <;> simp [eventuallyOf]

theorem satisfies_alwaysOf {φ : Formula} :
    (alwaysOf φ).Satisfies σ ↔ ∀ n, φ.Satisfies (σ.drop n) := by
  cases φ <;> simp [alwaysOf]

theorem satisfies_negationOf {φ : Formula} : (negationOf φ).Satisfies σ ↔ ¬ φ.Satisfies σ := by
  induction φ generalizing σ with
  | bot | top | atom | junction | implies | strongUntil => simp [negationOf]
  | neg φ _ => simp [negationOf]
  | next φ ih => rw [negationOf, satisfies_nextOf, ih, satisfies_next]
  | eventually φ ih =>
    rw [negationOf, satisfies_alwaysOf, satisfies_eventually, not_exists]
    exact forall_congr' fun n => ih
  | always φ ih =>
    rw [negationOf, satisfies_eventuallyOf, satisfies_always, Classical.not_forall]
    exact exists_congr fun n => ih

theorem satisfies_impliesOf {φ ψ : Formula} :
    (impliesOf φ ψ).Satisfies σ ↔ (φ.Satisfies σ → ψ.Satisfies σ) := by
  fun_cases impliesOf φ ψ <;> simp_all [satisfies_negationOf]

/-- `φ until φ` asks for `φ` now: a later arrival still needs `φ` on the way. -/
theorem satisfies_strongUntil_self {φ : Formula} :
    (strongUntil φ φ).Satisfies σ ↔ φ.Satisfies σ := by
  rw [satisfies_strongUntil_step]
  constructor
  · rintro (now | ⟨now, _⟩)
    · exact now
    · exact now
  · exact Or.inl

theorem satisfies_untilOf {φ ψ : Formula} :
    (untilOf φ ψ).Satisfies σ ↔ (strongUntil φ ψ).Satisfies σ := by
  fun_cases untilOf φ ψ with
  | case1 => rw [satisfies_strongUntil_step]; simp
  | case2 => simp
  | case3 => rw [satisfies_strongUntil_step]; simp
  | case4 => simp
  | case5 => exact satisfies_strongUntil_self.symm
  | case6 => rfl

section Junctions

variable {kind : Junction} {operands : List Formula}

theorem holds_parts {φ : Formula} :
    kind.Holds (·.Satisfies σ) (kind.parts φ) ↔ φ.Satisfies σ := by
  by_cases h : ∃ operands, φ = junction kind operands
  · obtain ⟨operands, rfl⟩ := h
    rw [parts_junction, satisfies_junction]
  · rw [parts_of_ne (not_exists.mp h)]
    cases kind <;> simp [Junction.Holds]

theorem holds_flat :
    kind.Holds (·.Satisfies σ) (operands.flatMap kind.parts) ↔
      kind.Holds (·.Satisfies σ) operands := by
  rw [Junction.holds_flatMap]
  exact Junction.holds_congr fun φ _ => holds_parts

/-- The operands that are kept say what all of them say. -/
theorem holds_keptOperands :
    kind.Holds (·.Satisfies σ) (keptOperands kind operands) ↔
      kind.Holds (·.Satisfies σ) (operands.flatMap kind.parts) := by
  cases kind with
  | all =>
    simp only [Junction.Holds, mem_keptOperands, Junction.identity]
    apply forall_congr'
    intro φ
    constructor
    · intro each member
      by_cases same : φ = top
      · rw [same]
        exact satisfies_top
      · exact each ⟨member, same⟩
    · intro each kept
      exact each kept.1
  | any =>
    simp only [Junction.Holds, mem_keptOperands, Junction.identity]
    apply exists_congr
    intro φ
    constructor
    · rintro ⟨⟨member, _⟩, holds⟩
      exact ⟨member, holds⟩
    · rintro ⟨member, holds⟩
      refine ⟨⟨member, ?_⟩, holds⟩
      rintro rfl
      exact not_satisfies_bot holds

theorem satisfies_absorbing_of_mem (h : kind.absorbing ∈ operands) :
    kind.absorbing.Satisfies σ ↔ kind.Holds (·.Satisfies σ) operands := by
  cases kind with
  | all => exact ⟨fun no => absurd no not_satisfies_bot, fun all => all _ h⟩
  | any => exact ⟨fun yes => ⟨_, h, yes⟩, fun _ => satisfies_top⟩

theorem satisfies_absorbing_of_complement (h : hasComplement operands = true) :
    kind.absorbing.Satisfies σ ↔ kind.Holds (·.Satisfies σ) operands := by
  obtain ⟨φ, negated, plain⟩ := hasComplement_iff.mp h
  cases kind with
  | all =>
    constructor
    · intro no
      exact absurd no not_satisfies_bot
    · intro every
      have missed := satisfies_neg.mp (every _ negated)
      exact absurd (every _ plain) missed
  | any =>
    constructor
    · intro _
      by_cases now : φ.Satisfies σ
      · exact ⟨φ, plain, now⟩
      · exact ⟨neg φ, negated, satisfies_neg.mpr now⟩
    · intro _
      exact satisfies_top

theorem satisfies_closeJunction :
    (closeJunction kind operands).Satisfies σ ↔ kind.Holds (·.Satisfies σ) operands := by
  fun_cases closeJunction kind operands with
  | case1 => cases kind <;> simp [Junction.Holds, Junction.identity]
  | case2 φ => cases kind <;> simp [Junction.Holds]
  | case3 => exact satisfies_junction

theorem satisfies_junctionOf :
    (junctionOf kind operands).Satisfies σ ↔ kind.Holds (·.Satisfies σ) operands := by
  rw [junctionOf_eq, ← holds_flat]
  split
  · rename_i absorbed
    exact satisfies_absorbing_of_mem absorbed
  · rw [← holds_keptOperands]
    split
    · rename_i complement
      exact satisfies_absorbing_of_complement complement
    · exact satisfies_closeJunction

end Junctions

/-- Simplification keeps the meaning of every formula. -/
theorem satisfies_simplify {φ : Formula} : φ.simplify.Satisfies σ ↔ φ.Satisfies σ := by
  induction φ generalizing σ with
  | bot | top | atom => rw [simplify]
  | neg φ ih => rw [simplify, satisfies_negationOf, ih, satisfies_neg]
  | junction kind operands ih =>
    rw [simplify_junction, satisfies_junctionOf, satisfies_junction, Junction.holds_map]
    exact Junction.holds_congr fun φ member => ih φ member
  | implies φ ψ ihφ ihψ => rw [simplify, satisfies_impliesOf, ihφ, ihψ, satisfies_implies]
  | next φ ih => rw [simplify, satisfies_nextOf, ih, satisfies_next]
  | eventually φ ih => simp only [simplify, satisfies_eventuallyOf, ih, satisfies_eventually]
  | always φ ih => simp only [simplify, satisfies_alwaysOf, ih, satisfies_always]
  | strongUntil φ ψ ihφ ihψ =>
    simp only [simplify, satisfies_untilOf, satisfies_strongUntil, ihφ, ihψ]

theorem satisfies_ofBool {b : Bool} : (ofBool b).Satisfies σ ↔ b = true := by
  cases b <;> simp [ofBool]

theorem satisfies_or {φ ψ : Formula} : (φ.or ψ).Satisfies σ ↔ φ.Satisfies σ ∨ ψ.Satisfies σ := by
  simp [Formula.or, Junction.Holds]

theorem satisfies_and {φ ψ : Formula} : (φ.and ψ).Satisfies σ ↔ φ.Satisfies σ ∧ ψ.Satisfies σ := by
  simp [Formula.and, Junction.Holds]

/-- The obligation left by the first observation, read on the rest of the behaviour. -/
theorem satisfies_progress {φ : Formula} :
    (φ.progress (σ 0)).Satisfies (σ.drop 1) ↔ φ.Satisfies σ := by
  induction φ with
  | bot | top => simp [progress]
  | atom i => rw [progress, satisfies_ofBool, Satisfies]
  | neg φ ih => rw [progress, satisfies_simplify, satisfies_neg, ih, satisfies_neg]
  | junction kind operands ih =>
    rw [progress, satisfies_simplify, satisfies_junction, satisfies_junction, progressAll_eq_map,
      Junction.holds_map]
    exact Junction.holds_congr fun φ member => ih φ member
  | implies φ ψ ihφ ihψ =>
    rw [progress, satisfies_simplify, satisfies_implies, ihφ, ihψ, satisfies_implies]
  | next φ _ => rw [progress, satisfies_simplify, satisfies_next]
  | eventually φ ih =>
    rw [progress, satisfies_simplify, satisfies_or, ih, ← satisfies_eventually_step]
  | always φ ih => rw [progress, satisfies_simplify, satisfies_and, ih, ← satisfies_always_step]
  | strongUntil φ ψ ihφ ihψ =>
    rw [progress, satisfies_simplify, satisfies_or, satisfies_and, ihφ, ihψ,
      ← satisfies_strongUntil_step]

/-- The obligation left by observations, one after another. -/
def after (φ : Formula) (os : List Observation) : Formula := os.foldl (fun ψ o => ψ.progress o) φ

theorem after_append (φ : Formula) (os : List Observation) (o : Observation) :
    φ.after (os ++ [o]) = (φ.after os).progress o := by
  rw [after, List.foldl_append]
  rfl

end Formula

/-- The observations that a behaviour begins with. -/
def Behaviour.StartsWith (σ : Behaviour) (os : List Observation) : Prop :=
  ∀ i (inside : i < os.length), σ i = os[i]

theorem Behaviour.startsWith_cons {σ : Behaviour} {o : Observation} {rest : List Observation} :
    σ.StartsWith (o :: rest) ↔ σ 0 = o ∧ (σ.drop 1).StartsWith rest := by
  constructor
  · intro starts
    refine ⟨starts 0 (Nat.succ_pos _), ?_⟩
    intro i inside
    rw [drop_apply, Nat.add_comm]
    exact starts (i + 1) (Nat.succ_lt_succ inside)
  · rintro ⟨first, others⟩ i inside
    cases i with
    | zero => exact first
    | succ i =>
      have tail := others i (Nat.lt_of_succ_lt_succ inside)
      rwa [drop_apply, Nat.add_comm] at tail

/-- The obligation left by the start of a behaviour, read on the rest of it. -/
theorem Formula.satisfies_after {σ : Behaviour} {os : List Observation} {φ : Formula}
    (starts : σ.StartsWith os) :
    (φ.after os).Satisfies (σ.drop os.length) ↔ φ.Satisfies σ := by
  induction os generalizing φ σ with
  | nil => rw [List.length_nil, Behaviour.drop_zero]; rfl
  | cons o rest ih =>
    obtain ⟨rfl, others⟩ := Behaviour.startsWith_cons.mp starts
    refine Iff.trans ?_ satisfies_progress
    rw [List.length_cons, Nat.add_comm, ← Behaviour.drop_drop]
    exact ih others

end TemporalRewards
