import TemporalRewards.Proofs.Formula.Denial
import TemporalRewards.Proofs.Monitor.Discharge

/-! Verdicts of equivalent spellings. Simplification moves a negation through next, eventually
and always, so that these spellings become one formula. It does not move it into junctions and
untils, so De Morgan's laws and the law of the implication leave two formulas, each of which
denies the operands of one conjunction. What such a denial reads as depends on the operands that
are kept of the conjunction, which both spellings have in common, as long as both are open. -/
namespace TemporalRewards

open Formula

section Denials

variable {φ ψ : Formula} {xs ys : List Formula} {o : Observation} {os : List Observation}

/-- A deniable formula reads alike with the negation in front and moved inward. -/
theorem presume_negationOf (deniable : Deniable φ) :
    presume true (negationOf φ) = (presume false φ).not := by
  obtain ⟨normal, coSafe⟩ := deniable
  cases normal with
  | bot | top | atom | junction | implies | strongUntil => rfl
  | neg => exact (Verdict.not_not _).symm
  | next normal stays =>
    rw [negationOf_next (.next normal stays)]
    rfl
  | eventually =>
    cases coSafe with
    | eventually never => contradiction
  | always normal stays =>
    rw [negationOf_always (.always normal stays)]
    rfl

theorem presumeAny_negations (deniable : ∀ φ ∈ xs, Deniable φ) :
    presume.presumeAny true (xs.map negationOf) = (presume.presumeAll false xs).not := by
  induction xs with
  | nil => rfl
  | cons φ rest ih =>
    obtain ⟨first, others⟩ := List.forall_mem_cons.mp deniable
    rw [List.map_cons, presume.presumeAny, presume.presumeAll, presume_negationOf first, ih others,
      Verdict.not_meet]

/-- How a denial reads depends on what is kept of the conjunction only. -/
theorem presume_deny (deniable : ∀ φ ∈ xs, Deniable φ) (varying : ¬ IsConstant (deny xs ψ)) :
    presume true (deny xs ψ) = Truth.join (presume true ψ)
      (presume false (junction .all (keptOperands .all xs))).not := by
  calc presume true (deny xs ψ)
      = presume true (junction .any (ψ :: xs.map negationOf)) :=
        presume_junctionOf (not_absorbed_of_not_constant varying)
    _ = Truth.join (presume true ψ) (presume.presumeAny true (xs.map negationOf)) := by
        rw [presume, presume.presumeAny]
    _ = Truth.join (presume true ψ) (presume false (junction .all xs)).not := by
        rw [presumeAny_negations deniable, presume]
    _ = _ := by rw [presume_keptOperands]

/-- An observation that does not decide a denial spares what is denied. -/
theorem spared_of_deny (varying : ¬ IsConstant (deny (xs.flatMap (pieces o)) ψ)) :
    Spared o xs := by
  intro operands member violated
  apply varying
  apply isConstant_deny_of_mem
  refine List.mem_flatMap.mpr ⟨_, member, ?_⟩
  rw [← violated]
  exact List.mem_cons_self

/-- Denials of the same conjunction read alike after any observations that decide neither,
however its operands are grouped. -/
theorem presume_after_deny (deniablex : ∀ φ ∈ xs, Deniable φ) (deniabley : ∀ φ ∈ ys, Deniable φ)
    (same : keptOperands .all xs = keptOperands .all ys)
    (varyingx : ¬ IsConstant ((deny xs ψ).after os))
    (varyingy : ¬ IsConstant ((deny ys ψ).after os)) :
    presume true ((deny xs ψ).after os) = presume true ((deny ys ψ).after os) := by
  have openx := mt (IsConstant.after · os) varyingx
  have openy := mt (IsConstant.after · os) varyingy
  induction os generalizing xs ys ψ with
  | nil => exact (presume_deny deniablex openx).trans (same ▸ (presume_deny deniabley openy).symm)
  | cons o rest ih =>
    have stepx : (deny xs ψ).after (o :: rest) =
        (deny (xs.flatMap (pieces o)) (ψ.progress o)).after rest :=
      congrArg (Formula.after · rest) (progress_deny deniablex openx o)
    have stepy : (deny ys ψ).after (o :: rest) =
        (deny (ys.flatMap (pieces o)) (ψ.progress o)).after rest :=
      congrArg (Formula.after · rest) (progress_deny deniabley openy o)
    rw [stepx] at varyingx ⊢
    rw [stepy] at varyingy ⊢
    have laterx := mt (IsConstant.after · rest) varyingx
    have latery := mt (IsConstant.after · rest) varyingy
    exact ih (deniable_flatMap_pieces deniablex) (deniable_flatMap_pieces deniabley)
      (keptOperands_pieces deniablex deniabley (spared_of_deny laterx)
        (spared_of_deny latery) same) varyingx varyingy laterx latery

theorem deny_bot (xs : List Formula) : deny xs bot = junctionOf .any (xs.map negationOf) :=
  junctionOf_identity_cons _

theorem deny_bot_singleton (normal : Normal φ) : deny [φ] bot = negationOf φ :=
  (deny_bot [φ]).trans (junctionOf_singleton (normal_negationOf normal))

theorem deny_top (normal : Normal ψ) : deny [top] ψ = ψ :=
  (junctionOf_swap .any ψ bot).trans (junctionOf_identity_pair normal)

/-- The negation of a conjunction reads as the disjunction of the negations after any
observations that decide neither. -/
theorem presume_after_negationOf_all (deniable : ∀ φ ∈ xs, Deniable φ)
    (whole : ¬ IsConstant ((negationOf (junctionOf .all xs)).after os))
    (each : ¬ IsConstant ((junctionOf .any (xs.map negationOf)).after os)) :
    presume true ((negationOf (junctionOf .all xs)).after os) =
      presume true ((junctionOf .any (xs.map negationOf)).after os) := by
  have conjunction : Deniable (junctionOf .all xs) :=
    ⟨normal_junctionOf .all fun φ member => (deniable φ member).normal,
      respects_junctionOf fun φ member => (deniable φ member).coSafe⟩
  have undecided : ¬ Absorbed .all xs := by
    have varying := mt (IsConstant.after · os) whole
    rw [isConstant_negationOf conjunction.normal] at varying
    exact not_absorbed_of_not_constant varying
  have same : keptOperands .all [junctionOf .all xs] = keptOperands .all xs :=
    keptOperands_junctionOf (fun φ member => (deniable φ member).normal) undecided
  rw [← deny_bot_singleton conjunction.normal] at whole ⊢
  rw [← deny_bot] at each ⊢
  exact presume_after_deny (List.forall_mem_singleton.mpr conjunction) deniable same whole each

/-- A premise that is not violated keeps what is kept of any spelling of it as a conjunction. -/
theorem keptOperands_progress (deniable : Deniable φ) (deniables : ∀ φ ∈ xs, Deniable φ)
    (premise : φ.progress o ≠ bot)
    (spared : Spared o xs) (same : keptOperands .all [φ] = keptOperands .all xs) :
    keptOperands .all [φ.progress o] = keptOperands .all (xs.flatMap (pieces o)) := by
  have undecided : ¬ Absorbed .all (pieces o φ) := fun absorbed =>
    premise ((deniable.progress_eq o).trans (junctionOf_of_absorbed absorbed))
  calc keptOperands .all [φ.progress o]
      = keptOperands .all ([φ].flatMap (pieces o)) := by
        rw [deniable.progress_eq, keptOperands_junctionOf
          (fun χ part => (deniable.pieces χ part).normal) undecided, List.flatMap_singleton]
    _ = keptOperands .all (xs.flatMap (pieces o)) :=
        keptOperands_pieces (List.forall_mem_singleton.mpr deniable) deniables
          (fun operands member => (List.mem_singleton.mp member) ▸ premise) spared same

theorem presume_implies (deniables : ∀ φ ∈ xs, Deniable φ)
    (same : keptOperands .all [φ] = keptOperands .all xs) (varying : ¬ IsConstant (deny xs ψ)) :
    presume true (implies φ ψ) = presume true (deny xs ψ) := by
  calc presume true (implies φ ψ)
      = Truth.join (presume true ψ) (presume false φ).not := by
        rw [presume, Bool.not_true, Verdict.join_comm]
    _ = Truth.join (presume true ψ)
          (presume false (junction .all (keptOperands .all [φ]))).not := by
        rw [presume_keptOperands, presume_singleton]
    _ = presume true (deny xs ψ) := by rw [same, presume_deny deniables varying]

/-- An implication that is not decided is a denial of its premise if one side is a constant. -/
theorem impliesOf_eq_deny_or (normalφ : Normal φ) (normalψ : Normal ψ)
    (varying : ¬ IsConstant (impliesOf φ ψ)) :
    impliesOf φ ψ = deny [φ] ψ ∨ impliesOf φ ψ = implies φ ψ := by
  rcases impliesOf_of_not_constant varying with ⟨rfl, same⟩ | ⟨rfl, same⟩ | same
  · exact .inl (same.trans (deny_top normalψ).symm)
  · exact .inl (same.trans (deny_bot_singleton normalφ).symm)
  · exact .inr same

/-- An implication reads as the denial of its premise or the conclusion after any observations
that decide neither of the two, however the operands of the premise are grouped. -/
theorem presume_after_impliesOf (deniable : Deniable φ) (normal : Normal ψ)
    (deniables : ∀ φ ∈ xs, Deniable φ) (same : keptOperands .all [φ] = keptOperands .all xs)
    (implied : ¬ IsConstant ((impliesOf φ ψ).after os))
    (denied : ¬ IsConstant ((deny xs ψ).after os)) :
    presume true ((impliesOf φ ψ).after os) = presume true ((deny xs ψ).after os) := by
  induction os generalizing φ ψ xs with
  | nil =>
    rcases impliesOf_eq_deny_or deniable.normal normal implied with denial | kept
    · rw [denial] at implied ⊢
      exact presume_after_deny (List.forall_mem_singleton.mpr deniable) deniables same implied denied
    · rw [kept]
      exact presume_implies deniables same denied
  | cons o rest ih =>
    have openL := mt (IsConstant.after · (o :: rest)) implied
    have openR := mt (IsConstant.after · (o :: rest)) denied
    rcases impliesOf_eq_deny_or deniable.normal normal openL with denial | kept
    · rw [denial] at implied ⊢
      exact presume_after_deny (List.forall_mem_singleton.mpr deniable) deniables same implied denied
    have stepL : (impliesOf φ ψ).after (o :: rest) =
        (impliesOf (φ.progress o) (ψ.progress o)).after rest := by
      rw [kept]
      exact congrArg (Formula.after · rest) (progress_implies φ ψ o)
    have stepR : (deny xs ψ).after (o :: rest) =
        (deny (xs.flatMap (pieces o)) (ψ.progress o)).after rest :=
      congrArg (Formula.after · rest) (progress_deny deniables openR o)
    rw [stepL] at implied ⊢
    rw [stepR] at denied ⊢
    have premise : φ.progress o ≠ bot := by
      intro violated
      rw [violated] at implied
      exact implied ⟨true, after_ofBool true rest⟩
    have spared := spared_of_deny (mt (IsConstant.after · rest) denied)
    exact ih (deniable.progress o) (normal_progress ψ o) (deniable_flatMap_pieces deniables)
      (keptOperands_progress deniable deniables premise spared same) implied denied

end Denials

namespace Monitor

/-- What can be asked of a monitor. -/
inductive Request
  | observe (tick : Tick) (o : Observation)
  | reset

/-- The monitor after a request; a stale observation leaves it as it was. -/
def respond (m : Monitor) : Request → Monitor
  | .observe tick o => (m.observe tick o).value.2
  | .reset => m.reset

def run (m : Monitor) (requests : List Request) : Monitor := requests.foldl respond m

section Runs

variable {φ ψ : Formula} {m n : Monitor} {calls entries : List (Tick × Observation)}

theorem replay_lastTick_eq (φ : Formula) (entries : List (Tick × Observation)) :
    ((ofFormula φ).replay entries).lastTick = entries.getLast?.map (·.1) := by
  rcases List.eq_nil_or_concat' entries with rfl | ⟨before, last, rfl⟩
  · rfl
  · rw [replay_lastTick, List.getLast?_concat]
    rfl

/-- All monitors accept the same observations, whatever their formula is. -/
theorem reached_run (requests : List Request) :
    ∃ calls, ∀ φ, Reached φ calls ((ofFormula φ).run requests) := by
  induction requests using List.reverseRecOn with
  | nil => exact ⟨[], fun φ => .start⟩
  | append_singleton requests request ih =>
    obtain ⟨calls, reached⟩ := ih
    have step (φ : Formula) : (ofFormula φ).run (requests ++ [request]) =
        ((ofFormula φ).run requests).respond request := by
      rw [run, List.foldl_append]
      rfl
    cases request with
    | reset =>
      refine ⟨[], fun φ => ?_⟩
      rw [step]
      exact .reset (reached φ)
    | observe tick o =>
      let entries := (SortedMap.ofList calls).entries
      have stale (φ : Formula) : ((ofFormula φ).run requests).stale? tick =
          ((ofFormula .bot).replay entries).stale? tick := by
        rw [(reached φ).eq_replay, stale?, stale?, replay_lastTick_eq, replay_lastTick_eq]
      cases fresh : ((ofFormula .bot).replay entries).stale? tick with
      | none =>
        refine ⟨calls ++ [(tick, o)], fun φ => ?_⟩
        have observed := observe_ok_iff (o := o).mpr ⟨(stale φ).trans fresh, rfl, rfl⟩
        have after : ((ofFormula φ).run requests).respond (.observe tick o) = _ :=
          congrArg Prod.snd observed
        rw [step, after]
        exact .accepted (reached φ) observed
      | some e =>
        refine ⟨calls, fun φ => ?_⟩
        have observed := observe_error_iff (o := o).mpr ⟨(stale φ).trans fresh, rfl⟩
        have after : ((ofFormula φ).run requests).respond (.observe tick o) = _ :=
          congrArg Prod.snd observed
        rw [step, after]
        exact .refused (reached φ) observed

/-- What a memoryless monitor has left is what the last observation alone leaves. -/
theorem replay_memoryless_residual (memoryless : φ.simplify.isTemporal = false)
    (entries : List (Tick × Observation)) :
    ((ofFormula φ).replay entries).residual =
      φ.simplify.after (entries.map (·.2)).getLast?.toList := by
  rcases List.eq_nil_or_concat' entries with rfl | ⟨before, e, rfl⟩
  · rfl
  · have base : ((ofFormula φ).replay before).baseAt e.1 = φ.simplify := by
      have known : ((ofFormula φ).replay before).isTemporal = false := by
        rw [isTemporal, replay_formula]
        exact memoryless
      rw [baseAt, replay_memoryless memoryless]
      cases ((ofFormula φ).replay before).lastTick <;> simp [known]
    rw [replay_append, List.map_append, List.map_singleton, List.getLast?_concat]
    exact congrArg (Formula.progress e.2) base

/-- Two formulas for the same behaviours, with monitors that both remember what they have
seen or both do not, unless one is settled from the start. -/
structure Twins (φ ψ : Formula) : Prop where
  equivalent : ∀ σ, φ.Satisfies σ ↔ ψ.Satisfies σ
  temporal : ¬ IsConstant φ.simplify → ¬ IsConstant ψ.simplify →
    φ.simplify.isTemporal = ψ.simplify.isTemporal

/-- What twins have left is what the same observations leave. -/
theorem Twins.residuals (twins : Twins φ ψ) (requests : List Request) : ∃ os,
    ((ofFormula φ).run requests).residual = φ.simplify.after os ∧
      ((ofFormula ψ).run requests).residual = ψ.simplify.after os := by
  obtain ⟨calls, reached⟩ := reached_run requests
  let entries := (SortedMap.ofList calls).entries
  have heard (χ : Formula) : ∃ os, ((ofFormula χ).run requests).residual = χ.simplify.after os ∧
      os = if χ.simplify.isTemporal then entries.map (·.2)
        else (entries.map (·.2)).getLast?.toList := by
    refine ⟨_, ?_, rfl⟩
    rw [(reached χ).eq_replay]
    cases temporal : χ.simplify.isTemporal with
    | true => exact replay_temporal temporal (increasing_entries _)
    | false => exact replay_memoryless_residual temporal entries
  obtain ⟨os, left, here⟩ := heard φ
  obtain ⟨os', right, there⟩ := heard ψ
  by_cases constantφ : IsConstant φ.simplify
  · -- A constant hears nothing, so it has heard what the other monitor has.
    obtain ⟨b, constant⟩ := constantφ
    refine ⟨os', ?_, right⟩
    rw [left, constant, after_ofBool, after_ofBool]
  by_cases constantψ : IsConstant ψ.simplify
  · obtain ⟨b, constant⟩ := constantψ
    refine ⟨os, left, ?_⟩
    rw [right, constant, after_ofBool, after_ofBool]
  rw [twins.temporal constantφ constantψ, ← there] at here
  exact ⟨os, left, here ▸ right⟩

/-- Decided twins agree. -/
theorem Twins.verdict_of_constant (twins : Twins φ ψ) {requests : List Request}
    (left : IsConstant ((ofFormula φ).run requests).residual)
    (right : IsConstant ((ofFormula ψ).run requests).residual) :
    ((ofFormula φ).run requests).verdict = ((ofFormula ψ).run requests).verdict := by
  obtain ⟨os, leftOver, rightOver⟩ := twins.residuals requests
  obtain ⟨a, left⟩ := left
  obtain ⟨b, right⟩ := right
  let σ : Behaviour := fun i => os[i]?.getD .empty
  have starts : σ.StartsWith os := by
    intro i inside
    simp only [σ, List.getElem?_eq_getElem inside, Option.getD_some]
  have values : a = true ↔ b = true := by
    have first := satisfies_after (φ := φ.simplify) starts
    have second := satisfies_after (φ := ψ.simplify) starts
    rw [← leftOver, left, satisfies_ofBool, satisfies_simplify] at first
    rw [← rightOver, right, satisfies_ofBool, satisfies_simplify] at second
    rw [first, second, twins.equivalent]
  rw [verdict, verdict, left, right, Bool.eq_iff_iff.mpr values]

end Runs

section Dualities

variable {φ ψ : Formula} {m n : Monitor}

theorem exists_mem_pair {p : Formula → Prop} : (∃ χ ∈ [φ, ψ], p χ) ↔ p φ ∨ p ψ := by
  simp only [List.mem_cons, List.not_mem_nil, or_false, exists_eq_or_imp, exists_eq_left]

theorem twins_neg_junction (kind : Junction) (φ ψ : Formula) :
    Twins (neg (junction kind [φ, ψ])) (junction kind.other [neg φ, neg ψ]) where
  equivalent σ := by
    cases kind with
    | all => simp [Junction.other, Junction.Holds, imp_iff_not_or]
    | any => simp [Junction.other, Junction.Holds]
  temporal left right := by
    rw [simplify, simplify_pair] at left ⊢
    rw [simplify_pair, simplify, simplify] at right ⊢
    have normal : Normal (junctionOf kind [φ.simplify, ψ.simplify]) :=
      normal_junctionOf kind (forall_mem_pair.mpr ⟨normal_simplify φ, normal_simplify ψ⟩)
    rw [isConstant_negationOf normal] at left
    rw [normal.isTemporal_negationOf, Bool.eq_iff_iff,
      isTemporal_junctionOf (not_absorbed_of_not_constant left),
      isTemporal_junctionOf (not_absorbed_of_not_constant right), exists_mem_pair, exists_mem_pair,
      (normal_simplify φ).isTemporal_negationOf, (normal_simplify ψ).isTemporal_negationOf]

theorem twins_implies (φ ψ : Formula) : Twins (implies φ ψ) (or (neg φ) ψ) where
  equivalent σ := by
    simp only [satisfies_implies, satisfies_or, satisfies_neg]
    tauto
  temporal left right := by
    rw [Formula.or, simplify_pair, simplify] at right ⊢
    rw [simplify] at left ⊢
    rw [Bool.eq_iff_iff, isTemporal_junctionOf (not_absorbed_of_not_constant right),
      exists_mem_pair, (normal_simplify φ).isTemporal_negationOf]
    rcases impliesOf_of_not_constant left with ⟨granted, same⟩ | ⟨missed, same⟩ | same <;> rw [same]
    · simp [granted, Formula.isTemporal]
    · simp [missed, Formula.isTemporal, (normal_simplify φ).isTemporal_negationOf]
    · simp [Formula.isTemporal]

/-- The dualities of the operators with two operands, as pairs of spellings. -/
inductive Dual (φ ψ : Formula) : Formula → Formula → Prop where
  | conjunction : Dual φ ψ (neg (and φ ψ)) (or (neg φ) (neg ψ))
  | disjunction : Dual φ ψ (neg (or φ ψ)) (and (neg φ) (neg ψ))
  | implication : Dual φ ψ (implies φ ψ) (or (neg φ) ψ)

theorem Dual.twins {left right : Formula} (dual : Dual φ ψ left right) : Twins left right := by
  cases dual with
  | conjunction => exact twins_neg_junction .all φ ψ
  | disjunction => exact twins_neg_junction .any φ ψ
  | implication => exact twins_implies φ ψ

/-- Twins agree if what they have left reads alike while neither is decided. -/
theorem Twins.verdict_eq (twins : Twins φ ψ) {requests : List Request}
    (alike : IsConstant ((ofFormula φ).run requests).residual ↔
      IsConstant ((ofFormula ψ).run requests).residual)
    (reads : ∀ os, ¬ IsConstant (φ.simplify.after os) → ¬ IsConstant (ψ.simplify.after os) →
      presume true (φ.simplify.after os) = presume true (ψ.simplify.after os)) :
    ((ofFormula φ).run requests).verdict = ((ofFormula ψ).run requests).verdict := by
  by_cases decided : IsConstant ((ofFormula φ).run requests).residual
  · exact twins.verdict_of_constant decided (alike.mp decided)
  · obtain ⟨os, left, right⟩ := twins.residuals requests
    have undecided := mt alike.mpr decided
    rw [verdict, verdict, left, right]
    exact reads os (left ▸ decided) (right ▸ undecided)

/-- An obligation that only waits for something to happen is inconclusive until it has. -/
theorem presume_after_of_waiting (normal : Normal φ)
    (waiting : φ.Respects (.coSafety (· = false)) true) (os : List Observation)
    (undecided : ¬ IsConstant (φ.after os)) : presume true (φ.after os) = .inconclusive := by
  induction os generalizing φ with
  | nil =>
    cases read : presume true φ with
    | violated => exact absurd ⟨false, (presume_eq_iff normal).1.mp read⟩ undecided
    | satisfied => exact absurd ⟨true, eq_ofBool_of_presume normal waiting read⟩ undecided
    | inconclusive => exact read
  | cons o rest ih => exact ih (normal_progress φ o) (waiting.progress normal o) undecided

theorem verdict_neg_and (coSafeφ : φ.simplify.Respects (.coSafety fun _ => True) false)
    (coSafeψ : ψ.simplify.Respects (.coSafety fun _ => True) false) {requests : List Request}
    (alike : IsConstant ((ofFormula (neg (and φ ψ))).run requests).residual ↔
      IsConstant ((ofFormula (or (neg φ) (neg ψ))).run requests).residual) :
    ((ofFormula (neg (and φ ψ))).run requests).verdict =
      ((ofFormula (or (neg φ) (neg ψ))).run requests).verdict := by
  refine Dual.conjunction.twins.verdict_eq alike ?_
  intro os whole each
  rw [simplify, Formula.and, simplify_pair] at whole ⊢
  rw [Formula.or, simplify_pair, simplify, simplify] at each ⊢
  exact presume_after_negationOf_all
    (forall_mem_pair.mpr ⟨⟨normal_simplify φ, coSafeφ⟩, ⟨normal_simplify ψ, coSafeψ⟩⟩) whole each

/-- Both spellings of a negated disjunction wait for something to happen. -/
theorem verdict_neg_or (waitingφ : φ.simplify.Respects (.coSafety (· = false)) false)
    (waitingψ : ψ.simplify.Respects (.coSafety (· = false)) false) {requests : List Request}
    (alike : IsConstant ((ofFormula (neg (or φ ψ))).run requests).residual ↔
      IsConstant ((ofFormula (and (neg φ) (neg ψ))).run requests).residual) :
    ((ofFormula (neg (or φ ψ))).run requests).verdict =
      ((ofFormula (and (neg φ) (neg ψ))).run requests).verdict := by
  have left : (neg (or φ ψ)).simplify.Respects (.coSafety (· = false)) true := by
    rw [simplify, Formula.or, simplify_pair]
    exact respects_negationOf (respects_junctionOf (forall_mem_pair.mpr ⟨waitingφ, waitingψ⟩))
  have right : (and (neg φ) (neg ψ)).simplify.Respects (.coSafety (· = false)) true := by
    rw [Formula.and, simplify_pair, simplify, simplify]
    exact respects_junctionOf
      (forall_mem_pair.mpr ⟨respects_negationOf waitingφ, respects_negationOf waitingψ⟩)
  refine Dual.disjunction.twins.verdict_eq alike ?_
  intro os whole each
  exact (presume_after_of_waiting (normal_simplify _) left os whole).trans
    (presume_after_of_waiting (normal_simplify _) right os each).symm

theorem verdict_implies (coSafe : φ.simplify.Respects (.coSafety fun _ => True) false)
    {requests : List Request}
    (alike : IsConstant ((ofFormula (implies φ ψ)).run requests).residual ↔
      IsConstant ((ofFormula (or (neg φ) ψ)).run requests).residual) :
    ((ofFormula (implies φ ψ)).run requests).verdict =
      ((ofFormula (or (neg φ) ψ)).run requests).verdict := by
  have deniable : Deniable φ.simplify := ⟨normal_simplify φ, coSafe⟩
  refine Dual.implication.twins.verdict_eq alike ?_
  intro os implied denied
  rw [simplify] at implied ⊢
  rw [Formula.or, simplify_pair, simplify, junctionOf_swap] at denied ⊢
  exact presume_after_impliesOf deniable (normal_simplify ψ)
    (List.forall_mem_singleton.mpr deniable) rfl implied denied

end Dualities

/-- Which of the dualities the verdicts respect. A negation may be moved through next,
eventually and always, and `true until φ` is `F φ`, at every point of every run. De Morgan's
laws and the law of the implication hold at every point at which both spellings are decided,
and at every point at which neither is if, counting the negation in front of them, the simplified
operands have eventually at even and always at odd polarity only; for the negated disjunction
they may also have until at odd polarity only. -/
theorem verdict_spellings (φ ψ : Formula) (requests : List Request) :
    let after (χ : Formula) := (ofFormula χ).run requests
    let decided (χ : Formula) := IsConstant (after χ).residual
    let agree (χ χ' : Formula) := (after χ).verdict = (after χ').verdict
    (agree (neg (next φ)) (next (neg φ)) ∧ agree (neg (eventually φ)) (always (neg φ)) ∧
      agree (neg (always φ)) (eventually (neg φ)) ∧
      agree (strongUntil top φ) (eventually φ)) ∧
    (∀ left right, Dual φ ψ left right → decided left → decided right → agree left right) ∧
    (φ.simplify.Respects (.coSafety fun _ => True) false →
      ψ.simplify.Respects (.coSafety fun _ => True) false →
      (decided (neg (and φ ψ)) ↔ decided (or (neg φ) (neg ψ))) →
      agree (neg (and φ ψ)) (or (neg φ) (neg ψ))) ∧
    (φ.simplify.Respects (.coSafety (· = false)) false →
      ψ.simplify.Respects (.coSafety (· = false)) false →
      (decided (neg (or φ ψ)) ↔ decided (and (neg φ) (neg ψ))) →
      agree (neg (or φ ψ)) (and (neg φ) (neg ψ))) ∧
    (φ.simplify.Respects (.coSafety fun _ => True) false →
      (decided (implies φ ψ) ↔ decided (or (neg φ) ψ)) →
      agree (implies φ ψ) (or (neg φ) ψ)) := by
  intro after decided agree
  have same {χ χ' : Formula} (simplified : χ.simplify = χ'.simplify) : agree χ χ' := by
    simp only [agree, after, ofFormula, simplified]
  refine ⟨⟨same ?_, same ?_, same ?_, same ?_⟩, ?_, ?_, ?_, ?_⟩
  · simp only [simplify, negationOf_nextOf]
  · simp only [simplify, negationOf_eventuallyOf]
  · simp only [simplify, negationOf_alwaysOf]
  · rw [simplify, simplify]
    cases φ.simplify <;> rfl
  · intro left right dual
    exact dual.twins.verdict_of_constant
  · exact fun coSafeφ coSafeψ => verdict_neg_and coSafeφ coSafeψ
  · exact fun waitingφ waitingψ => verdict_neg_or waitingφ waitingψ
  · exact fun coSafe => verdict_implies coSafe

/-- `not (a U b and G c)`, `not (G c or a U b)` and `a U b ⇒ G c` after a tick with `a` and `c`
and one with `a` alone. -/
theorem verdict_spellings_until :
    let after (χ : Formula) := (ofFormula χ).run [.observe 0 (.ofNat 5), .observe 1 (.ofNat 1)]
    let hold := strongUntil (atom 0) (atom 1)
    let stay := always (atom 2)
    (after (neg (and hold stay))).verdict = (after (or (neg hold) (neg stay))).verdict ∧
      (after (neg (or stay hold))).verdict = (after (and (neg stay) (neg hold))).verdict ∧
      (after (implies hold stay)).verdict = (after (or (neg hold) stay)).verdict := by
  intro after hold stay
  have held : hold.simplify.Respects (.coSafety (· = false)) false := .strongUntil rfl .atom .atom
  have stayed : stay.simplify.Respects (.coSafety (· = false)) false := .always rfl .atom
  have held' : hold.simplify.Respects (.coSafety fun _ => True) false :=
    held.mono (fun _ => id) fun _ _ => trivial
  have stayed' : stay.simplify.Respects (.coSafety fun _ => True) false :=
    stayed.mono (fun _ => id) fun _ _ => trivial
  obtain ⟨_, _, conjunction, _, implication⟩ := verdict_spellings hold stay
    [.observe 0 (.ofNat 5), .observe 1 (.ofNat 1)]
  obtain ⟨_, _, _, disjunction, _⟩ := verdict_spellings stay hold
    [.observe 0 (.ofNat 5), .observe 1 (.ofNat 1)]
  exact ⟨conjunction held' stayed' (by decide), disjunction stayed held (by decide),
    implication held' (by decide)⟩

/-- What is pending below a negation shows in the spelling: a tick with neither `a` nor `b`
leaves `not (F a and F b)`, `not (F a or F b)` and `F a ⇒ F b` inconclusive, and the dual
spellings satisfied. -/
theorem spellings_part :
    ¬ (∀ φ ψ requests, ((ofFormula (neg (and φ ψ))).run requests).verdict =
      ((ofFormula (or (neg φ) (neg ψ))).run requests).verdict) ∧
    ¬ (∀ φ ψ requests, ((ofFormula (neg (or φ ψ))).run requests).verdict =
      ((ofFormula (and (neg φ) (neg ψ))).run requests).verdict) ∧
    ¬ (∀ φ ψ requests, ((ofFormula (implies φ ψ)).run requests).verdict =
      ((ofFormula (or (neg φ) ψ)).run requests).verdict) := by
  refine ⟨fun agree => ?_, fun agree => ?_, fun agree => ?_⟩
  all_goals
    have same := agree (eventually (atom 0)) (eventually (atom 1)) [.observe 0 (.ofNat 0)]
    revert same
    decide

/-- `G ((c or X not (p and q)) and (c ⇒ X X (p and q)))`, with `p`, `q` and `c` first. -/
def turning : Formula :=
  let both := and (atom 0) (atom 1)
  always (and (or (atom 2) (next (neg both))) (implies (atom 2) (next (next both))))

/-- Without eventually, the spellings still part if a complement is found in one of them only,
and below a negated disjunction also if an until at even polarity is presumed in one only. -/
theorem spellings_part_decided :
    let verdict (χ : Formula) (requests : List Request) := ((ofFormula χ).run requests).verdict
    let soon := or (next (atom 0)) (next (atom 1))
    let held := neg (strongUntil (atom 3) (atom 4))
    verdict (neg (and (and soon (atom 2)) (neg soon))) [] = .satisfied ∧
      verdict (or (neg (and soon (atom 2))) (neg (neg soon))) [] = .inconclusive ∧
    verdict (implies soon soon) [] = .satisfied ∧ verdict (or (neg soon) soon) [] = .inconclusive ∧
    verdict (neg (or turning held)) [.observe 0 (.ofNat 12), .observe 1 (.ofNat 8)] =
      .inconclusive ∧
    verdict (and (neg turning) (neg held)) [.observe 0 (.ofNat 12), .observe 1 (.ofNat 8)] =
      .satisfied ∧
    ((ofFormula (and (neg turning) (neg held))).run
      [.observe 0 (.ofNat 12), .observe 1 (.ofNat 8)]).residual =
        strongUntil (atom 3) (atom 4) := by
  intro verdict soon held
  decide

end Monitor

end TemporalRewards
