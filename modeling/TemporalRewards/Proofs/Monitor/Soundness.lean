import TemporalRewards.Proofs.Formula.Propositional
import TemporalRewards.Proofs.Monitor.History

/-! What a monitor knows about the behaviour that it observes. A temporal monitor
is anchored at the reset: its residual is exactly the obligation on what is still
to come. A memoryless one judges every observation as if it were the first. -/
namespace TemporalRewards

namespace Verdict

theorem meet_eq_violated {a b : Verdict} :
    Truth.meet a b = violated ↔ a = violated ∨ b = violated := by
  cases a <;> cases b <;> decide

theorem meet_eq_satisfied {a b : Verdict} :
    Truth.meet a b = satisfied ↔ a = satisfied ∧ b = satisfied := by
  cases a <;> cases b <;> decide

theorem join_eq_violated {a b : Verdict} :
    Truth.join a b = violated ↔ a = violated ∧ b = violated := by
  cases a <;> cases b <;> decide

theorem join_eq_satisfied {a b : Verdict} :
    Truth.join a b = satisfied ↔ a = satisfied ∨ b = satisfied := by
  cases a <;> cases b <;> decide

theorem not_eq_violated {a : Verdict} : a.not = violated ↔ a = satisfied := by
  cases a <;> decide

theorem not_eq_satisfied {a : Verdict} : a.not = satisfied ↔ a = violated := by
  cases a <;> decide

end Verdict

section Presumptions

variable {positive : Bool} {operands : List Formula}

theorem presumeAll_eq_violated : presume.presumeAll positive operands = .violated ↔
    ∃ φ ∈ operands, presume positive φ = .violated := by
  induction operands with
  | nil => simp [presume.presumeAll, Truth.top]
  | cons φ rest ih =>
    simp only [presume.presumeAll, Verdict.meet_eq_violated, ih, List.mem_cons, exists_eq_or_imp]

theorem presumeAll_eq_satisfied : presume.presumeAll positive operands = .satisfied ↔
    ∀ φ ∈ operands, presume positive φ = .satisfied := by
  induction operands with
  | nil => simp [presume.presumeAll, Truth.top]
  | cons φ rest ih =>
    simp only [presume.presumeAll, Verdict.meet_eq_satisfied, ih, List.forall_mem_cons]

theorem presumeAny_eq_violated : presume.presumeAny positive operands = .violated ↔
    ∀ φ ∈ operands, presume positive φ = .violated := by
  induction operands with
  | nil => simp [presume.presumeAny, Truth.bottom]
  | cons φ rest ih =>
    simp only [presume.presumeAny, Verdict.join_eq_violated, ih, List.forall_mem_cons]

theorem presumeAny_eq_satisfied : presume.presumeAny positive operands = .satisfied ↔
    ∃ φ ∈ operands, presume positive φ = .satisfied := by
  induction operands with
  | nil => simp [presume.presumeAny, Truth.bottom]
  | cons φ rest ih =>
    simp only [presume.presumeAny, Verdict.join_eq_satisfied, ih, List.mem_cons, exists_eq_or_imp]

end Presumptions

/-- A violation is never presumed: no behaviour satisfies a formula that reads as
violated, and below a negation every behaviour satisfies one that reads as satisfied. -/
theorem presume_definite (φ : Formula) :
    (presume true φ = .violated → ∀ σ, ¬ φ.Satisfies σ) ∧
      (presume false φ = .satisfied → ∀ σ, φ.Satisfies σ) := by
  induction φ with
  | bot | top | atom | next | eventually | always | strongUntil => simp [presume]
  | neg φ ih =>
    simp only [presume, Verdict.not_eq_violated, Verdict.not_eq_satisfied, Formula.satisfies_neg]
    constructor
    · intro yes σ no
      exact no (ih.2 yes σ)
    · intro no σ
      exact ih.1 no σ
  | implies φ ψ ihφ ihψ =>
    simp only [presume, Verdict.join_eq_violated, Verdict.join_eq_satisfied,
      Verdict.not_eq_violated, Verdict.not_eq_satisfied, Formula.satisfies_implies]
    constructor
    · rintro ⟨premise, no⟩ σ holds
      exact ihψ.1 no σ (holds (ihφ.2 premise σ))
    · rintro (no | yes) σ premise
      · exact absurd premise (ihφ.1 no σ)
      · exact ihψ.2 yes σ
  | junction kind operands ih =>
    cases kind with
    | all =>
      simp only [presume, presumeAll_eq_violated, presumeAll_eq_satisfied,
        Formula.satisfies_junction, Junction.Holds]
      constructor
      · rintro ⟨φ, member, no⟩ σ every
        exact (ih φ member).1 no σ (every φ member)
      · intro yes σ φ member
        exact (ih φ member).2 (yes φ member) σ
    | any =>
      simp only [presume, presumeAny_eq_violated, presumeAny_eq_satisfied,
        Formula.satisfies_junction, Junction.Holds]
      constructor
      · rintro no σ ⟨φ, member, holds⟩
        exact (ih φ member).1 (no φ member) σ holds
      · rintro ⟨φ, member, yes⟩ σ
        exact ⟨φ, member, (ih φ member).2 yes σ⟩

namespace Monitor

variable {φ : Formula} {m : Monitor} {calls entries : List (Tick × Observation)}

/-- A later tick of a temporal monitor goes on from its residual. -/
theorem replay_temporal (temporal : φ.simplify.isTemporal = true)
    (increasing : entries.Pairwise fun a b => a.1 < b.1) :
    ((ofFormula φ).replay entries).residual = φ.simplify.after (entries.map (·.2)) := by
  induction entries using List.reverseRecOn with
  | nil => rfl
  | append_singleton entries e ih =>
    obtain ⟨before, _, later⟩ := List.pairwise_append.mp increasing
    have base : ((ofFormula φ).replay entries).baseAt e.1 =
        ((ofFormula φ).replay entries).residual := by
      rcases List.eq_nil_or_concat' entries with rfl | ⟨earlier, last, rfl⟩
      · rfl
      · have less : last.1 < e.1 := later last (by simp) e (by simp)
        have known : ((ofFormula φ).replay (earlier ++ [last])).isTemporal = true := by
          rw [isTemporal, replay_formula]
          exact temporal
        simp only [baseAt, replay_lastTick, less, known, and_self, if_true]
    rw [replay_append, List.map_append, List.map_singleton, Formula.after_append, ← ih before,
      ← base]
    rfl

/-- A memoryless monitor reads each observation against the whole formula. -/
theorem replay_memoryless (memoryless : φ.simplify.isTemporal = false) :
    ((ofFormula φ).replay entries).base = φ.simplify := by
  induction entries using List.reverseRecOn with
  | nil => rfl
  | append_singleton entries e ih =>
    have known : ((ofFormula φ).replay entries).isTemporal = false := by
      rw [isTemporal, replay_formula]
      exact memoryless
    rw [replay_append, advance, baseAt]
    cases ((ofFormula φ).replay entries).lastTick <;> simpa [known] using ih

/-- In every state that a temporal monitor reaches, the residual is the obligation
on the rest of the behaviour. -/
theorem Reached.satisfies_residual (reached : Reached φ calls m)
    (temporal : φ.simplify.isTemporal = true) {σ : Behaviour}
    (starts : σ.StartsWith (SortedMap.ofList calls).values) :
    φ.Satisfies σ ↔ m.residual.Satisfies (σ.drop (SortedMap.ofList calls).size) := by
  have size : (SortedMap.ofList calls).size = (SortedMap.ofList calls).values.length :=
    (List.length_map _).symm
  rw [reached.eq_replay, replay_temporal temporal (increasing_entries _), size,
    ← SortedMap.values, Formula.satisfies_after starts, Formula.satisfies_simplify]

theorem settled?_eq_some {value : Bool} (settled : m.settled? = some value) :
    m.residual = Formula.ofBool value := by
  unfold settled? at settled
  split at settled
  · split at settled <;> simp_all [Formula.ofBool]
  · contradiction

theorem settled?_eq_some_iff {value : Bool} (temporal : m.isTemporal = true) :
    m.settled? = some value ↔ m.residual = Formula.ofBool value := by
  refine ⟨settled?_eq_some, fun constant => ?_⟩
  rw [settled?, if_pos temporal, constant]
  cases value <;> rfl

/-- The residual of a temporal monitor is exact. Whatever was observed since the
reset, with the latest tick observed any number of times, a behaviour that begins
with the last observation of each tick satisfies the formula as it was written just
when the rest of the behaviour satisfies the residual; so a settled verdict holds
for every continuation. -/
theorem residual_exact (reached : Reached φ calls m)
    (temporal : (ofFormula φ).isTemporal = true) {σ : Behaviour}
    (starts : σ.StartsWith (SortedMap.ofList calls).values) :
    (φ.Satisfies σ ↔ m.residual.Satisfies (σ.drop (SortedMap.ofList calls).size)) ∧
      ∀ value, m.settled? = some value → (φ.Satisfies σ ↔ value = true) := by
  have exact := reached.satisfies_residual temporal starts
  refine ⟨exact, ?_⟩
  intro value settled
  rw [exact, settled?_eq_some settled, Formula.satisfies_ofBool]

/-- Tick 3 is observed twice: only its second observation counts for `p until q`. -/
theorem residual_exact_until : ∃ m, Reached (.strongUntil (.atom 0) (.atom 1))
    [(3, .ofNat 2), (3, .ofNat 1), (5, .ofNat 1)] m ∧
    ((Formula.strongUntil (.atom 0) (.atom 1)).Satisfies (fun i => .ofNat (if i < 2 then 1 else 2)) ↔
      m.residual.Satisfies (Behaviour.drop (fun i => .ofNat (if i < 2 then 1 else 2)) 2)) := by
  let fresh := ofFormula (.strongUntil (.atom 0) (.atom 1))
  have reached : Reached (.strongUntil (.atom 0) (.atom 1))
      [(3, .ofNat 2), (3, .ofNat 1), (5, .ofNat 1)]
      (((fresh.advance 3 (.ofNat 2)).advance 3 (.ofNat 1)).advance 5 (.ofNat 1)) :=
    .accepted (.accepted (.accepted .start rfl) rfl) rfl
  have starts : Behaviour.StartsWith (fun i => .ofNat (if i < 2 then 1 else 2))
      [.ofNat 1, .ofNat 1] := by
    intro i inside
    match i, inside with
    | 0, _ => rfl
    | 1, _ => rfl
  exact ⟨_, reached, (residual_exact reached rfl starts).1⟩

end Monitor

/-- A formula is anchored if its monitor never reports a violation that a behaviour
with the observations made so far, one for each tick since the reset, could belie. -/
def Formula.Anchored (φ : Formula) : Prop :=
  ∀ {calls m tick o after}, Monitor.Reached φ calls m →
    (m.observe tick o).value = (.ok .violated, after) →
    (calls ++ [(tick, o)]).Pairwise (fun a b => a.1 < b.1) →
    ∀ σ : Behaviour, σ.StartsWith ((calls ++ [(tick, o)]).map (·.2)) → ¬ φ.Satisfies σ

namespace Formula

variable {φ : Formula}

theorem anchored_of_temporal (temporal : φ.simplify.isTemporal = true) : φ.Anchored := by
  intro calls m tick o after reached observed increasing σ starts
  have reached := Monitor.Reached.accepted reached observed
  obtain ⟨_, violated, _⟩ := Monitor.observe_ok_iff.mp observed
  have same : (SortedMap.ofList (calls ++ [(tick, o)])).values =
      (calls ++ [(tick, o)]).map (·.2) := by
    rw [SortedMap.values, SortedMap.entries_ofList (increasing.imp Nat.compare_eq_lt.mpr)]
  rw [reached.satisfies_residual temporal (same ▸ starts)]
  exact (presume_definite after.residual).1 violated.symm _

/-- After an observation a memoryless monitor has read it against the whole formula. -/
theorem memoryless_residual (memoryless : φ.simplify.isTemporal = false) {calls m tick o after}
    {verdict : Verdict} (reached : Monitor.Reached φ calls m)
    (observed : (m.observe tick o).value = (.ok verdict, after)) :
    after.residual = φ.simplify.progress o := by
  obtain ⟨_, _, rfl⟩ := Monitor.observe_ok_iff.mp observed
  have base : m.base = φ.simplify := by
    rw [reached.eq_replay]
    exact Monitor.replay_memoryless memoryless
  have known : m.isTemporal = false := by
    rw [Monitor.isTemporal, reached.formula_eq, memoryless]
  have whole : m.baseAt tick = φ.simplify := by
    rw [Monitor.baseAt]
    cases m.lastTick <;> simpa [known] using base
  rw [← whole]
  rfl

theorem presume_ofBool (b : Bool) : presume true (ofBool b) = Verdict.ofBool b := by
  cases b <;> rfl

theorem anchored_of_constant {b : Bool} (constant : ∀ o, φ.simplify.evaluate? o = some b) :
    φ.Anchored := by
  cases temporal : φ.simplify.isTemporal with
  | true => exact anchored_of_temporal temporal
  | false =>
    intro calls m tick o after reached observed _ σ _ holds
    obtain ⟨value, evaluated, left⟩ := progress_propositional temporal o
    have same : value = b := Option.some.inj (evaluated.symm.trans (constant o))
    obtain ⟨_, violated, _⟩ := Monitor.observe_ok_iff.mp observed
    rw [Monitor.verdict, memoryless_residual temporal reached observed, left, presume_ofBool,
      same] at violated
    rw [← satisfies_simplify, satisfies_iff_evaluate? temporal, constant,
      Option.some.injEq] at holds
    subst holds
    contradiction

/-- A memoryless monitor forgets that its formula was met at the reset: a later
observation at which the formula is false is reported as a violation. -/
theorem not_anchored_of_varying (memoryless : φ.simplify.isTemporal = false)
    {met missed : Observation} (yes : φ.simplify.evaluate? met = some true)
    (no : φ.simplify.evaluate? missed = some false) : ¬ φ.Anchored := by
  intro anchored
  let fresh := Monitor.ofFormula φ
  have first : (fresh.observe 0 met).value =
      (.ok (fresh.advance 0 met).verdict, fresh.advance 0 met) := rfl
  have reached := Monitor.Reached.accepted .start first
  have second : ((fresh.advance 0 met).observe 1 missed).value =
      (.ok ((fresh.advance 0 met).advance 1 missed).verdict,
        (fresh.advance 0 met).advance 1 missed) := rfl
  have violated : ((fresh.advance 0 met).advance 1 missed).verdict = .violated := by
    obtain ⟨value, evaluated, left⟩ := progress_propositional memoryless missed
    have same : value = false := Option.some.inj (evaluated.symm.trans no)
    rw [Monitor.verdict, memoryless_residual memoryless reached second, left, same]
    rfl
  rw [violated] at second
  let σ : Behaviour := fun i => if i = 0 then met else missed
  have holds : φ.Satisfies σ := by
    rw [← satisfies_simplify, satisfies_iff_evaluate? memoryless]
    exact yes
  refine anchored reached second (by simp) σ ?_ holds
  intro i inside
  match i, inside with
  | 0, _ => rfl
  | 1, _ => rfl

/-- Exactly which formulas are anchored: those that keep a temporal operator when
they are simplified, and those that have one truth value at all observations. -/
theorem anchored_iff : φ.Anchored ↔
    φ.simplify.isTemporal = true ∨ ∃ b, ∀ o, φ.simplify.evaluate? o = some b := by
  constructor
  · intro anchored
    cases temporal : φ.simplify.isTemporal with
    | true => exact Or.inl rfl
    | false =>
      right
      by_contra varying
      have other : ∀ b, ∃ o, φ.simplify.evaluate? o = some (!b) := by
        intro b
        by_contra never
        apply varying
        refine ⟨b, ?_⟩
        intro o
        obtain ⟨value, evaluated, _⟩ := progress_propositional temporal o
        have apart : value ≠ !b := fun same => never ⟨o, same ▸ evaluated⟩
        rw [evaluated, Bool.not_eq_not.mp apart]
      obtain ⟨met, yes⟩ := other false
      obtain ⟨missed, no⟩ := other true
      exact not_anchored_of_varying temporal yes no anchored
  · rintro (temporal | ⟨b, constant⟩)
    · exact anchored_of_temporal temporal
    · exact anchored_of_constant constant

/-- Simplification makes `p until p` the plain `p`, and its monitor memoryless. -/
theorem not_anchored_until_self : ¬ ∀ φ : Formula, φ.isTemporal = true → φ.Anchored := by
  intro every
  have met : (strongUntil (atom 0) (atom 0)).simplify.evaluate? (.ofNat 1) = some true := by decide
  have missed : (strongUntil (atom 0) (atom 0)).simplify.evaluate? (.ofNat 0) = some false := by
    decide
  exact not_anchored_of_varying rfl met missed (every _ rfl)

end Formula

end TemporalRewards
