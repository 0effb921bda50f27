import Mathlib.Data.Fintype.Basic
import TemporalRewards.Proofs.Formula.Settling
import TemporalRewards.Proofs.Monitor.Memoryless

/-! Eventually, always and until over formulas without temporal operators, in closed form.
What such a monitor has left is its formula until an observation decides it, and a
constant from then on. -/
namespace TemporalRewards

/-- Some observation is one of `right`, and all observations before it are ones of `left`. -/
def ReachedThrough (left right : Observation → Prop) (os : List Observation) : Prop :=
  ∃ k : Fin os.length, right os[k] ∧ ∀ o ∈ os.take k, left o

section ReachedThrough

variable {left right p q : Observation → Prop} {o : Observation} {os : List Observation}

instance [DecidablePred left] [DecidablePred right] (os : List Observation) :
    Decidable (ReachedThrough left right os) :=
  inferInstanceAs (Decidable (∃ k : Fin os.length, right os[k] ∧ ∀ o ∈ os.take k, left o))

theorem not_reachedThrough_nil : ¬ ReachedThrough left right [] := by
  rintro ⟨k, _⟩
  exact k.elim0

theorem reachedThrough_cons : ReachedThrough left right (o :: os) ↔
    right o ∨ left o ∧ ReachedThrough left right os := by
  refine Fin.exists_fin_succ.trans (or_congr ?_ ?_)
  · exact and_iff_left fun _ none => absurd none List.not_mem_nil
  · simp only [ReachedThrough, Fin.val_succ, List.take_succ_cons, List.forall_mem_cons,
      ← exists_and_left]
    refine exists_congr fun k => ?_
    rw [and_left_comm]
    rfl

/-- Either `q` is reached through `p`, or neither holds at some observation before the first
`q`, or `q` is still to come and `p` has held so far. -/
theorem reachedThrough_cases (p q : Observation → Prop) (os : List Observation) :
    ReachedThrough p q os ∨ ReachedThrough (fun o => ¬ q o) (fun o => ¬ p o ∧ ¬ q o) os ∨
      ∀ o ∈ os, p o ∧ ¬ q o := by
  induction os with
  | nil => exact Or.inr (Or.inr fun _ none => absurd none List.not_mem_nil)
  | cons o rest ih =>
    simp only [reachedThrough_cons, List.forall_mem_cons]
    tauto

end ReachedThrough

namespace Formula

variable {φ ψ : Formula} {os : List Observation}

/-- The formula has a truth value at the observation, and it is true. -/
def Met (φ : Formula) (o : Observation) : Prop := φ.evaluate? o = some true

instance (φ : Formula) : DecidablePred φ.Met :=
  fun o => inferInstanceAs (Decidable (φ.evaluate? o = some true))

/-- A formula without temporal operators that is not simplified to a constant. -/
structure Contingent (φ : Formula) : Prop where
  plain : φ.isTemporal = false
  varying : ¬ IsConstant φ.simplify

/-- Simplification keeps which observations meet a formula. -/
theorem met_simplify (plain : φ.isTemporal = false) {o : Observation} :
    φ.simplify.Met o ↔ φ.Met o := by
  rw [Met, Met, evaluate?_simplify plain]

theorem progress_of_met (plain : φ.isTemporal = false) {o : Observation} (met : φ.Met o) :
    φ.simplify.progress o = top :=
  progress_of_evaluate? ((met_simplify plain).mpr met)

theorem progress_of_not_met (plain : φ.isTemporal = false) {o : Observation} (missed : ¬ φ.Met o) :
    φ.simplify.progress o = bot := by
  obtain ⟨b, value, left⟩ := progress_propositional (isTemporal_simplify plain) o
  have other : b ≠ true := by
    rintro rfl
    exact missed ((met_simplify plain).mp value)
  rw [left, Bool.eq_false_of_not_eq_true other]
  rfl

section Obligations

variable {p q : Formula} {o : Observation}

/-- An obligation that an observation either decides or leaves as it is is decided by the
first observation that does. -/
theorem after_of_decided {judge : Observation → Option Bool}
    (step : ∀ o, φ.progress o = (judge o).elim φ ofBool) (os : List Observation) :
    φ.after os = (os.findSome? judge).elim φ ofBool := by
  induction os with
  | nil => rfl
  | cons o rest ih =>
    change (φ.progress o).after rest = _
    rw [step, List.findSome?_cons]
    cases judge o with
    | none => exact ih
    | some b => exact after_ofBool b rest

theorem decided_eventually (contingent : p.Contingent) (o : Observation) :
    (eventually p.simplify).progress o =
      (if p.Met o then some true else none).elim (eventually p.simplify) ofBool := by
  have normal : Normal (eventually p.simplify) :=
    .eventually (normal_simplify p) (eventuallyOf_eq_eventually_iff.mpr contingent.varying)
  rw [progress_eventually normal]
  split
  · rename_i met
    rw [progress_of_met contingent.plain met]
    exact junctionOf_absorbing_cons _
  · rename_i missed
    rw [progress_of_not_met contingent.plain missed]
    exact junctionOf_identity_pair normal

theorem decided_always (contingent : p.Contingent) (o : Observation) :
    (always p.simplify).progress o =
      (if ¬ p.Met o then some false else none).elim (always p.simplify) ofBool := by
  have normal : Normal (always p.simplify) :=
    .always (normal_simplify p) (alwaysOf_eq_always_iff.mpr contingent.varying)
  rw [progress_always normal]
  split
  · rename_i missed
    rw [progress_of_not_met contingent.plain missed]
    exact junctionOf_absorbing_cons _
  · rename_i met
    rw [progress_of_met contingent.plain (not_not.mp met)]
    exact junctionOf_identity_pair normal

theorem decided_strongUntil (contingentp : p.Contingent) (contingentq : q.Contingent)
    (apart : p.simplify ≠ q.simplify) (o : Observation) :
    (strongUntil p.simplify q.simplify).progress o =
      (if q.Met o then some true else if p.Met o then none else some false).elim
        (strongUntil p.simplify q.simplify) ofBool := by
  have normal : Normal (strongUntil p.simplify q.simplify) :=
    .strongUntil (normal_simplify p) (normal_simplify q)
      (untilOf_eq_strongUntil_iff.mpr ⟨contingentp.varying, contingentq.varying, apart⟩)
  rw [progress_strongUntil normal]
  split
  · rename_i met
    rw [progress_of_met contingentq.plain met]
    exact junctionOf_absorbing_cons _
  · rename_i waiting
    rw [progress_of_not_met contingentq.plain waiting]
    split
    · rename_i met
      have inner : junctionOf .all [top, strongUntil p.simplify q.simplify] =
          strongUntil p.simplify q.simplify := junctionOf_identity_pair normal
      rw [progress_of_met contingentp.plain met, inner]
      exact junctionOf_identity_pair normal
    · rename_i missed
      have inner : junctionOf .all [bot, strongUntil p.simplify q.simplify] = bot :=
        junctionOf_absorbing_cons _
      rw [progress_of_not_met contingentp.plain missed, inner]
      exact junctionOf_identity_pair .bot

/-- The first observation that decides is one of those that do. -/
theorem findSome?_eq_ite (p : Observation → Prop) [DecidablePred p] (b : Bool)
    (os : List Observation) :
    (os.findSome? fun o => if p o then some b else none) =
      if ∃ o ∈ os, p o then some b else none := by
  induction os with
  | nil => simp
  | cons o rest ih =>
    rw [List.findSome?_cons]
    by_cases decided : p o <;> simp [decided, ih]

/-- An until is decided by the first observation at which the left side fails or the right
one holds. -/
theorem findSome?_until (p q : Observation → Prop) [DecidablePred p] [DecidablePred q]
    (os : List Observation) :
    (os.findSome? fun o => if q o then some true else if p o then none else some false) =
      if ReachedThrough p q os then some true
      else if ReachedThrough (fun o => ¬ q o) (fun o => ¬ p o ∧ ¬ q o) os then some false
      else none := by
  induction os with
  | nil => simp [not_reachedThrough_nil]
  | cons o rest ih =>
    rw [List.findSome?_cons]
    by_cases right : q o <;> by_cases left : p o <;> simp [reachedThrough_cons, left, right, ih]

end Obligations

end Formula

namespace Monitor

open Formula

variable {φ ψ p q : Formula} {entries : List (Tick × Observation)}

/-- From a start or a reset on the monitor takes the entries in. After the last of them it
answers the verdict, and `settled` tells whether it is settled. -/
def Answers (φ : Formula) (entries : List (Tick × Observation)) (verdict : Verdict)
    (settled : Prop) : Prop :=
  ∀ m, Reached φ [] m → ∃ verdicts after, (m.observeAll entries).value = (.ok verdicts, after) ∧
    verdicts.getLast? = entries.getLast?.map (fun e => (e.1, verdict)) ∧
    after.verdict = verdict ∧ (after.isSettled = true ↔ settled)

theorem isSettled_iff {m : Monitor} (temporal : m.isTemporal = true) :
    m.isSettled = true ↔ IsConstant m.residual := by
  rw [isSettled, Option.isSome_iff_exists]
  exact exists_congr fun b => settled?_eq_some_iff temporal

theorem Answers.congr {verdict verdict' : Verdict} {settled settled' : Prop}
    (answers : Answers φ entries verdict settled) (verdicts : verdict = verdict')
    (same : settled ↔ settled') : Answers φ entries verdict' settled' := by
  obtain rfl := verdicts
  rwa [← propext same]

/-- It is enough to know the state after the entries. -/
theorem answers_of_replay (increasing : entries.Pairwise fun a b => a.1 < b.1) {verdict : Verdict}
    {settled : Prop} (read : ((ofFormula φ).replay entries).verdict = verdict)
    (settles : ((ofFormula φ).replay entries).isSettled = true ↔ settled) :
    Answers φ entries verdict settled := by
  intro m reached
  obtain rfl : m = ofFormula φ := reached.eq_replay
  obtain ⟨verdicts, observed, last⟩ :=
    observeAll_eq (m := ofFormula φ) increasing fun _ known => by contradiction
  exact ⟨verdicts, _, observed, by rw [last, read], read, settles⟩

theorem answers_of_decided (simplified : φ.simplify = ψ) (temporal : ψ.isTemporal = true)
    {judge : Observation → Option Bool} (step : ∀ o, ψ.progress o = (judge o).elim ψ ofBool)
    (increasing : entries.Pairwise fun a b => a.1 < b.1) {decision : Option Bool}
    (decided : (entries.map (·.2)).findSome? judge = decision) :
    Answers φ entries (decision.elim (presume true ψ) Verdict.ofBool) (decision.isSome = true) := by
  subst simplified
  have residual : ((ofFormula φ).replay entries).residual = decision.elim φ.simplify ofBool := by
    rw [replay_temporal temporal increasing, after_of_decided step, decided]
  have kept : ((ofFormula φ).replay entries).isTemporal = true := by
    rw [isTemporal, replay_formula]
    exact temporal
  have verdict : ((ofFormula φ).replay entries).verdict =
      decision.elim (presume true φ.simplify) Verdict.ofBool := by
    rw [Monitor.verdict, residual]
    cases decision with
    | none => rfl
    | some b => exact presume_ofBool b
  refine answers_of_replay increasing verdict ?_
  rw [isSettled_iff kept, residual]
  cases decision with
  | none => exact iff_of_false (not_constant_of_temporal temporal) Bool.false_ne_true
  | some b => exact iff_of_true ⟨b, rfl⟩ rfl

theorem answers_eventually (contingent : p.Contingent)
    (increasing : entries.Pairwise fun a b => a.1 < b.1) :
    let os := entries.map (·.2)
    Answers (eventually p) entries (if ∃ o ∈ os, p.Met o then .satisfied else .inconclusive)
      (∃ o ∈ os, p.Met o) := by
  intro os
  refine (answers_of_decided (φ := eventually p)
    (eventuallyOf_eq_eventually_iff.mpr contingent.varying) rfl
    (decided_eventually contingent) increasing (findSome?_eq_ite p.Met true os)).congr ?_ ?_
  · split <;> rfl
  · exact Option.isSome_ite

theorem answers_always (contingent : p.Contingent)
    (increasing : entries.Pairwise fun a b => a.1 < b.1) :
    let os := entries.map (·.2)
    Answers (always p) entries (if ∀ o ∈ os, p.Met o then .satisfied else .violated)
      (∃ o ∈ os, ¬ p.Met o) := by
  intro os
  refine (answers_of_decided (φ := always p) (alwaysOf_eq_always_iff.mpr contingent.varying) rfl
    (decided_always contingent) increasing (findSome?_eq_ite (¬ p.Met ·) false os)).congr ?_ ?_
  · by_cases met : ∀ o ∈ os, p.Met o
    · rw [if_pos met, if_neg (by simpa using met)]
      rfl
    · rw [if_neg met, if_pos (by simpa using met)]
      rfl
  · exact Option.isSome_ite

theorem answers_strongUntil (contingentp : p.Contingent) (contingentq : q.Contingent)
    (apart : p.simplify ≠ q.simplify) (increasing : entries.Pairwise fun a b => a.1 < b.1) :
    let os := entries.map (·.2)
    Answers (strongUntil p q) entries
      (if ReachedThrough p.Met q.Met os ∨ ∀ o ∈ os, p.Met o ∧ ¬ q.Met o then .satisfied
        else .violated)
      (ReachedThrough p.Met q.Met os ∨
        ReachedThrough (fun o => ¬ q.Met o) (fun o => ¬ p.Met o ∧ ¬ q.Met o) os) := by
  intro os
  refine (answers_of_decided (φ := strongUntil p q)
    (untilOf_eq_strongUntil_iff.mpr ⟨contingentp.varying, contingentq.varying, apart⟩) rfl
    (decided_strongUntil contingentp contingentq apart) increasing
    (findSome?_until p.Met q.Met os)).congr ?_ ?_
  · by_cases reached : ReachedThrough p.Met q.Met os
    · rw [if_pos reached, if_pos (Or.inl reached)]
      rfl
    rw [if_neg reached]
    by_cases pending : ∀ o ∈ os, p.Met o ∧ ¬ q.Met o
    · rw [if_pos (Or.inr pending), if_neg]
      · rfl
      · rintro ⟨k, ⟨missed, _⟩, _⟩
        exact missed (pending _ (List.getElem_mem k.isLt)).1
    · rw [if_neg (not_or.mpr ⟨reached, pending⟩), if_pos]
      · rfl
      · simpa [reached, pending] using reachedThrough_cases p.Met q.Met os
  · split
    · rename_i reached
      exact iff_of_true rfl (Or.inl reached)
    · rename_i reached
      rw [or_iff_right reached]
      exact Option.isSome_ite

/-- The un-nested operators in closed form, for operands without temporal operators that are
not simplified to constants or to the same formula, over the observations since the reset:
`F p` is satisfied from the first `p` on and inconclusive before. `G p` is satisfied while
every observation has met `p` and violated from the first that has not. `p until q` is
satisfied if `q` is reached through `p`, or is still to come while `p` has held so far, and
violated otherwise. The monitor is settled just when an observation has met or missed the
formula for good. -/
theorem answers_unnested (contingentp : p.Contingent) (contingentq : q.Contingent)
    (apart : p.simplify ≠ q.simplify) (increasing : entries.Pairwise fun a b => a.1 < b.1) :
    let os := entries.map (·.2)
    Answers (eventually p) entries
      (if ∃ o ∈ os, p.Met o then .satisfied else .inconclusive) (∃ o ∈ os, p.Met o) ∧
    Answers (always p) entries
      (if ∀ o ∈ os, p.Met o then .satisfied else .violated) (∃ o ∈ os, ¬ p.Met o) ∧
    Answers (strongUntil p q) entries
      (if ReachedThrough p.Met q.Met os ∨ ∀ o ∈ os, p.Met o ∧ ¬ q.Met o then .satisfied
        else .violated)
      (ReachedThrough p.Met q.Met os ∨
        ReachedThrough (fun o => ¬ q.Met o) (fun o => ¬ p.Met o ∧ ¬ q.Met o) os) := by
  intro os
  exact ⟨answers_eventually contingentp increasing, answers_always contingentp increasing,
    answers_strongUntil contingentp contingentq apart increasing⟩

/-- `p until q` is satisfied for good if `p` at tick 2 is followed by `q` alone at tick 5. -/
theorem answers_unnested_until : ∃ verdicts after,
    ((ofFormula (strongUntil (atom 0) (atom 1))).observeAll [(2, .ofNat 1), (5, .ofNat 2)]).value =
      (.ok verdicts, after) ∧ after.verdict = .satisfied ∧ after.isSettled = true := by
  have contingent (i : Nat) : (atom i).Contingent := ⟨rfl, by rintro ⟨_ | _, ⟨⟩⟩⟩
  have increasing : [((2 : Tick), Observation.ofNat 1), (5, .ofNat 2)].Pairwise
      fun a b => a.1 < b.1 := by simp
  obtain ⟨_, _, answers⟩ :=
    answers_unnested (contingent 0) (contingent 1) (by decide) increasing
  obtain ⟨verdicts, after, observed, _, verdict, settled⟩ := answers _ .start
  exact ⟨verdicts, after, observed, verdict.trans (by decide), settled.mpr (by decide)⟩

end Monitor

end TemporalRewards
