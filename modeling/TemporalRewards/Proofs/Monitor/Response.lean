import TemporalRewards.Proofs.Monitor.Residuals
import TemporalRewards.Proofs.Monitor.Unnested

/-! The response pattern: whenever `p` holds, `q` holds then or later. Every tick with a `p`
leaves an obligation beside the standing one. These obligations are all the same and merge, so
a monitor of the pattern is in one of two states, however many requests are open, and its
verdict tells in which. -/
namespace TemporalRewards

/-- Some observation is one of `p`, and neither it nor a later one is one of `q`. -/
def Unanswered (p q : Observation → Prop) (os : List Observation) : Prop :=
  ∃ i : Fin os.length, p (os.get i) ∧ ∀ o ∈ os.drop i, ¬ q o

section Unanswered

variable {p q : Observation → Prop} {o : Observation} {os : List Observation}

instance [DecidablePred p] [DecidablePred q] (os : List Observation) :
    Decidable (Unanswered p q os) :=
  inferInstanceAs (Decidable (∃ i : Fin os.length, p (os.get i) ∧ ∀ o ∈ os.drop i, ¬ q o))

theorem not_unanswered_nil : ¬ Unanswered p q [] := by
  rintro ⟨i, _⟩
  exact i.elim0

theorem unanswered_cons : Unanswered p q (o :: os) ↔
    (p o ∧ ¬ q o ∧ ∀ o ∈ os, ¬ q o) ∨ Unanswered p q os := by
  refine Fin.exists_fin_succ.trans (or_congr ?_ Iff.rfl)
  exact and_congr_right fun _ => List.forall_mem_cons

/-- Where every `p` is a `q` itself nothing is left to be answered. -/
theorem not_unanswered (answered : ∀ o, p o → q o) (os : List Observation) :
    ¬ Unanswered p q os := by
  induction os with
  | nil => exact not_unanswered_nil
  | cons o rest ih =>
    rw [unanswered_cons]
    rintro (⟨asked, missed, _⟩ | later)
    · exact missed (answered o asked)
    · exact ih later

end Unanswered

namespace Formula

/-- Whenever `p` holds, `q` holds then or later. -/
def response (p q : Formula) : Formula := always (implies p (eventually q))

/-- What is left of the response pattern while an answer is due. -/
def awaiting (p q : Formula) : Formula :=
  junction .all [eventually q.simplify, (response p q).simplify]

section Response

variable {φ p q : Formula} {o : Observation}

theorem impliesOf_top (φ : Formula) : impliesOf φ top = top := by
  cases φ <;> rfl

theorem top_impliesOf (φ : Formula) : impliesOf top φ = φ := by
  cases φ <;> rfl

/-- A premise without temporal operators stays unless it is a constant. -/
theorem impliesOf_eventually (plain : φ.isTemporal = false) (χ : Formula) :
    impliesOf φ (eventually χ) = if φ = bot then top else if φ = top then eventually χ
      else implies φ (eventually χ) := by
  split
  · rename_i never
    rw [never]
    rfl
  split
  · rename_i always
    rw [always]
    rfl
  · rename_i possible varying
    refine impliesOf_eq_implies_iff.mpr ⟨?_, ?_, ?_⟩
    · exact isConstant_iff.not.mpr (not_or.mpr ⟨possible, varying⟩)
    · exact not_constant_of_temporal rfl
    · rintro rfl
      contradiction

theorem met_of_simplify_eq (plain : φ.isTemporal = false) {b : Bool}
    (constant : φ.simplify = ofBool b) (o : Observation) : φ.Met o ↔ b = true := by
  rw [← met_simplify plain, constant]
  cases b <;> simp [Met, ofBool, evaluate?]

/-- A response pattern that simplification keeps, except for a premise that is always true. -/
structure Standing (p q : Formula) : Prop where
  plain : p.isTemporal = false
  contingent : q.Contingent
  shape : (response p q).simplify = always (impliesOf p.simplify (eventually q.simplify))

/-- Either the pattern stays or it is simplified away, as every `p` is a `q` itself. -/
theorem standing_or_top (plainp : p.isTemporal = false) (plainq : q.isTemporal = false)
    (possible : q.simplify ≠ bot) :
    Standing p q ∨ (response p q).simplify = top ∧ ∀ o, p.Met o → q.Met o := by
  have shape : (response p q).simplify =
      alwaysOf (impliesOf p.simplify (eventuallyOf q.simplify)) := rfl
  by_cases always : IsConstant q.simplify
  · have constant : q.simplify = top := (isConstant_iff.mp always).resolve_left possible
    refine Or.inr ⟨?_, fun o _ => (met_of_simplify_eq (b := true) plainq constant o).mpr rfl⟩
    rw [shape, constant, eventuallyOf, impliesOf_top, alwaysOf]
  rw [eventuallyOf_eq_eventually_iff.mpr always] at shape
  by_cases never : p.simplify = bot
  · refine Or.inr ⟨by rw [shape, never]; rfl, ?_⟩
    intro o asked
    rw [met_of_simplify_eq (b := false) plainp never o] at asked
    contradiction
  · refine Or.inl ⟨plainp, ⟨plainq, always⟩, ?_⟩
    rw [shape, alwaysOf_eq_always_iff, impliesOf_eventually (isTemporal_simplify plainp),
      if_neg never]
    split <;> exact not_constant_of_temporal (by simp [isTemporal])

/-- What one tick demands is an answer if `p` holds and `q` does not. -/
theorem Standing.progress_demand (standing : Standing p q) (o : Observation) :
    (impliesOf p.simplify (eventually q.simplify)).progress o =
      if p.Met o ∧ ¬ q.Met o then eventually q.simplify else top := by
  obtain ⟨plain, contingent, _⟩ := standing
  have premise : (impliesOf p.simplify (eventually q.simplify)).progress o =
      if p.Met o then (eventually q.simplify).progress o else top := by
    rw [impliesOf_eventually (isTemporal_simplify plain)]
    split
    · rename_i never
      rw [if_neg (by simp [met_of_simplify_eq (b := false) plain never])]
      rfl
    split
    · rename_i always
      rw [if_pos ((met_of_simplify_eq (b := true) plain always o).mpr rfl)]
    rw [progress_implies]
    split
    · rename_i asked
      rw [progress_of_met plain asked, top_impliesOf]
    · rename_i unasked
      rw [progress_of_not_met plain unasked]
      rfl
  rw [premise, decided_eventually contingent]
  by_cases asked : p.Met o <;> by_cases answered : q.Met o <;> simp [asked, answered, ofBool]

theorem Standing.awaiting_eq (standing : Standing p q) :
    awaiting p q = junctionOf .all [eventually q.simplify, (response p q).simplify] := by
  rw [awaiting, standing.shape]
  exact (junctionOf_pair rfl rfl (by simp [headRank]) (by simp [headRank])).symm

/-- A request that is not answered at once makes the pattern wait. -/
theorem Standing.progress_response (standing : Standing p q) (o : Observation) :
    (response p q).simplify.progress o =
      if p.Met o ∧ ¬ q.Met o then awaiting p q else (response p q).simplify := by
  have normal := normal_simplify (response p q)
  have step : (response p q).simplify.progress o = junctionOf .all
      [(impliesOf p.simplify (eventually q.simplify)).progress o, (response p q).simplify] := by
    rw [standing.shape] at normal ⊢
    exact progress_always normal o
  rw [step, standing.progress_demand, standing.awaiting_eq]
  split
  · rfl
  · exact junctionOf_identity_pair normal

/-- One answer serves all requests, and a further request adds nothing to the wait. -/
theorem Standing.progress_awaiting (standing : Standing p q) (o : Observation) :
    (awaiting p q).progress o = if q.Met o then (response p q).simplify else awaiting p q := by
  have normal := normal_simplify (response p q)
  have step : (awaiting p q).progress o = junctionOf .all
      [(eventually q.simplify).progress o, (response p q).simplify.progress o] := by
    rw [awaiting, progress_junction, List.map_cons, List.map_singleton]
  rw [step, standing.progress_response, decided_eventually standing.contingent]
  by_cases answered : q.Met o
  · simp only [answered, not_true_eq_false, and_false, if_true, if_false]
    exact junctionOf_identity_pair normal
  by_cases asked : p.Met o
  · have whole := normal_simplify (eventually q)
    rw [simplify, eventuallyOf_eq_eventually_iff.mpr standing.contingent.varying] at whole
    simp only [answered, asked, not_false_eq_true, and_true, if_true, if_false]
    calc junctionOf .all [eventually q.simplify, awaiting p q]
        = junctionOf .all [awaiting p q, eventually q.simplify] := junctionOf_swap _ _ _
      _ = junctionOf .all ([eventually q.simplify, (response p q).simplify] ++
            [eventually q.simplify]) := by
          rw [standing.awaiting_eq, junctionOf_junctionOf .all (forall_mem_pair.mpr ⟨whole, normal⟩)]
      _ = awaiting p q := by
          rw [standing.awaiting_eq]
          exact junctionOf_congr_mem fun χ => by grind
  · simp only [answered, asked, not_false_eq_true, and_true, if_false]
    exact standing.awaiting_eq.symm

/-- Which of the two states the pattern is in after observations, from either of them. -/
theorem Standing.after (standing : Standing p q) (os : List Observation) :
    (response p q).simplify.after os =
        (if Unanswered p.Met q.Met os then awaiting p q else (response p q).simplify) ∧
      (awaiting p q).after os =
        if Unanswered p.Met q.Met os ∨ ∀ o ∈ os, ¬ q.Met o then awaiting p q
        else (response p q).simplify := by
  induction os with
  | nil => simp [Formula.after, not_unanswered_nil]
  | cons o rest ih =>
    have first (φ : Formula) : φ.after (o :: rest) = (φ.progress o).after rest := rfl
    rw [first, first, standing.progress_response, standing.progress_awaiting]
    simp only [unanswered_cons, List.forall_mem_cons]
    -- The state that the first observation leaves selects the half of the hypothesis.
    grind

end Response

end Formula

namespace Monitor

open Formula

variable {p q : Formula} {m : Monitor} {calls entries : List (Tick × Observation)}

/-- The last observation of each tick since the reset decides the state of the pattern. -/
theorem Reached.residual_response (standing : Standing p q)
    (reached : Reached (response p q) calls m) :
    m.residual = if Unanswered p.Met q.Met (SortedMap.ofList calls).values then awaiting p q
      else (response p q).simplify := by
  have temporal : (response p q).simplify.isTemporal = true := by
    rw [standing.shape]
    rfl
  rw [reached.eq_replay, replay_temporal temporal (increasing_entries _)]
  exact (standing.after _).1

theorem presume_awaiting (standing : Standing p q) :
    presume true (awaiting p q) = .inconclusive := by
  rw [awaiting, standing.shape]
  rfl

/-- Where the pattern is simplified away the residual is `top` in every state. -/
theorem Reached.residual_top (trivial : (response p q).simplify = top)
    (reached : Reached (response p q) calls m) : m.residual = top :=
  (reached.residual_of_step (p := (· = top)) trivial fun ψ same o => by rw [same, progress]).2

theorem Reached.verdict_response (plainp : p.isTemporal = false) (plainq : q.isTemporal = false)
    (possible : q.simplify ≠ bot) (reached : Reached (response p q) calls m) :
    m.verdict = (if Unanswered p.Met q.Met (SortedMap.ofList calls).values then .inconclusive
      else .satisfied) ∧ m.isSettled = false := by
  rcases standing_or_top plainp plainq possible with standing | ⟨trivial, answered⟩
  · have temporal : m.isTemporal = true := by
      rw [isTemporal, reached.formula_eq, standing.shape]
      rfl
    have residual := reached.residual_response standing
    have read : presume true (response p q).simplify = .satisfied := by
      rw [standing.shape]
      rfl
    constructor
    · rw [verdict, residual]
      split
      · exact presume_awaiting standing
      · exact read
    · rw [Bool.eq_false_iff, ne_eq, isSettled_iff temporal, residual]
      split
      · exact not_constant_of_temporal (isTemporal_junction.mpr ⟨_, List.mem_cons_self, rfl⟩)
      · exact not_constant_of_temporal (by rw [standing.shape]; rfl)
  · have memoryless : m.isTemporal = false := by
      rw [isTemporal, reached.formula_eq, trivial]
      rfl
    refine ⟨?_, isSettled_of_memoryless memoryless⟩
    rw [if_neg (not_unanswered answered _), verdict, reached.residual_top trivial]
    rfl

/-- The response pattern in closed form, for a `p` and a `q` without temporal operators of which
`q` is not simplified to `bot`. From a start or a reset on, after observations at increasing
ticks, the verdict is inconclusive if some `p` has had no `q` at its tick or later, and a
satisfaction otherwise; the pattern is never violated, and the monitor is never settled. While the
simplified pattern is temporal the residual is one of two formulas in every state: the simplified
pattern itself, or with the obligation of `q` beside it. -/
theorem answers_response (plainp : p.isTemporal = false) (plainq : q.isTemporal = false)
    (possible : q.simplify ≠ bot) :
    (∀ entries, entries.Pairwise (fun a b => a.1 < b.1) → Answers (response p q) entries
      (if Unanswered p.Met q.Met (entries.map (·.2)) then .inconclusive else .satisfied) False) ∧
    ((response p q).simplify.isTemporal = true → ∀ calls m, Reached (response p q) calls m →
      m.residual = if Unanswered p.Met q.Met (SortedMap.ofList calls).values then awaiting p q
        else (response p q).simplify) := by
  constructor
  · intro entries increasing
    have values : (SortedMap.ofList entries).values = entries.map (·.2) := by
      rw [SortedMap.values, SortedMap.entries_ofList (increasing.imp Nat.compare_eq_lt.mpr)]
    obtain ⟨verdict, unsettled⟩ :=
      (reached_replay increasing).verdict_response plainp plainq possible
    rw [values] at verdict
    exact answers_of_replay increasing verdict (by simp [unsettled])
  · intro temporal calls m reached
    rcases standing_or_top plainp plainq possible with standing | ⟨trivial, _⟩
    · exact reached.residual_response standing
    · rw [trivial] at temporal
      contradiction

/-- Two requests at ticks 0 and 3 are both open until the answer at tick 4, and then a third
one is. -/
theorem answers_response_overlapping :
    (∃ m, Reached (response (atom 0) (atom 1)) [(0, .ofNat 1), (3, .ofNat 1)] m ∧
      m.residual = awaiting (atom 0) (atom 1)) ∧
    ∃ verdicts after, ((ofFormula (response (atom 0) (atom 1))).observeAll
      [(0, .ofNat 1), (3, .ofNat 1), (4, .ofNat 2), (7, .ofNat 1)]).value = (.ok verdicts, after) ∧
      after.verdict = .inconclusive ∧ after.isSettled = false := by
  have response := answers_response (p := atom 0) (q := atom 1) rfl rfl (by decide)
  constructor
  · have reached : Reached (Formula.response (atom 0) (atom 1)) [(0, .ofNat 1), (3, .ofNat 1)] _ :=
      reached_replay (by simp)
    exact ⟨_, reached, (response.2 rfl _ _ reached).trans (if_pos (by decide))⟩
  · obtain ⟨verdicts, after, observed, _, verdict, settled⟩ := response.1
      [(0, .ofNat 1), (3, .ofNat 1), (4, .ofNat 2), (7, .ofNat 1)] (by simp) _ .start
    exact ⟨verdicts, after, observed, verdict.trans (by decide), by simpa using settled⟩

end Monitor

end TemporalRewards
