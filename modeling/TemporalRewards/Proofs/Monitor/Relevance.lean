import TemporalRewards.Proofs.Monitor.Residuals
import TemporalRewards.Proofs.Syntax.Readers

/-! Which propositions a monitor reads. Observations that differ in no proposition of the
formula leave the same residual, so two runs over such observations cannot be told apart:
they give the same answers and records and lead to the same states. -/
namespace TemporalRewards

namespace Formula

variable {A : Set Nat} {φ : Formula} {o p : Observation}

/-- Progression reads the propositions of the formula only. -/
theorem progress_congr (mentions : Mentions A φ) (agree : ∀ i ∈ A, o.get i = p.get i) :
    φ.progress o = φ.progress p := by
  induction φ with
  | bot | top => rfl
  | atom i => rw [progress, progress, agree i (mentions i List.mem_cons_self)]
  | neg φ ih => rw [progress, progress, ih mentions]
  | junction kind operands ih =>
    have same : operands.map (progress o) = operands.map (progress p) :=
      List.map_congr_left fun φ member => ih φ member (mentions_junction.mp mentions φ member)
    rw [progress, progress, progressAll_eq_map, progressAll_eq_map, same]
  | implies φ ψ ihφ ihψ =>
    obtain ⟨mentionsφ, mentionsψ⟩ := mentions_implies.mp mentions
    rw [progress, progress, ihφ mentionsφ, ihψ mentionsψ]
  | next φ _ => rw [progress, progress]
  | eventually φ ih | always φ ih => rw [progress, progress, ih mentions]
  | strongUntil φ ψ ihφ ihψ =>
    obtain ⟨mentionsφ, mentionsψ⟩ := mentions_strongUntil.mp mentions
    rw [progress, progress, ihφ mentionsφ, ihψ mentionsψ]

end Formula

namespace Monitor

open Formula

variable {A : Set Nat} {φ : Formula} {m : Monitor} {tick : Tick} {o p : Observation}
  {calls others : List (Tick × Observation)}

/-- Each answer of a monitor with the state that it leaves and what is recorded. -/
def transcript (m : Monitor) : List (Tick × Observation) →
    List (Logged (Except StaleTick Verdict × Monitor))
  | [] => []
  | (tick, o) :: rest => m.observe tick o :: (m.observe tick o).value.2.transcript rest

/-- Two calls for the same tick, with observations that agree on some propositions. -/
def SameOn (A : Set Nat) (call other : Tick × Observation) : Prop :=
  call.1 = other.1 ∧ ∀ i ∈ A, call.2.get i = other.2.get i

/-- All that a monitor keeps speaks of propositions from a set. -/
structure Speaks (A : Set Nat) (m : Monitor) : Prop where
  base : Mentions A m.base
  residual : Mentions A m.residual

theorem speaks_ofFormula (mentions : Mentions A φ) : Speaks A (ofFormula φ) :=
  ⟨mentions_simplify mentions, mentions_simplify mentions⟩

theorem Speaks.baseAt (speaks : Speaks A m) (tick : Tick) : Mentions A (m.baseAt tick) := by
  rcases baseAt_cases m tick with same | same
  · exact same ▸ speaks.base
  · exact same ▸ speaks.residual

theorem Speaks.observe (speaks : Speaks A m) (tick : Tick) (o : Observation) :
    Speaks A (m.observe tick o).value.2 := by
  unfold Monitor.observe
  split
  · exact speaks
  · exact ⟨speaks.baseAt tick, mentions_progress o (speaks.baseAt tick)⟩

theorem Speaks.observe_congr (speaks : Speaks A m) (agree : ∀ i ∈ A, o.get i = p.get i) :
    m.observe tick o = m.observe tick p := by
  have same : m.advance tick o = m.advance tick p := by
    rw [advance, advance, progress_congr (speaks.baseAt tick) agree]
  rw [Monitor.observe, Monitor.observe, same]

theorem Speaks.transcript_congr (speaks : Speaks A m)
    (agree : List.Forall₂ (SameOn A) calls others) :
    m.transcript calls = m.transcript others := by
  induction agree generalizing m with
  | nil => rfl
  | @cons call other _ _ first _ ih =>
    obtain ⟨tick, o⟩ := call
    obtain ⟨_, p⟩ := other
    obtain ⟨rfl, agree⟩ := first
    have now : m.observe tick o = m.observe tick p := speaks.observe_congr agree
    rw [transcript, transcript, now, ih (speaks.observe tick p)]

end Monitor

/-- What is derived speaks of propositions of the alphabet. -/
theorem Grammar.Derives.mentions {alphabet : Alphabet} {level : Level} {depth : Nat}
    {tokens : List Token} {φ : Formula} (derives : Derives alphabet level depth tokens φ) :
    Formula.Mentions {i | i < alphabet.size} φ := by
  induction derives with
  | right found _ _ left right =>
    cases found with
    | implies => exact Formula.mentions_implies.mpr ⟨left, right⟩
    | strongUntil => exact Formula.mentions_strongUntil.mpr ⟨left, right⟩
  | last _ _ ih | single _ _ ih | enclosed _ ih => exact ih
  | several _ _ _ ih => exact Formula.mentions_junction.mpr (List.forall_mem_map.mpr ih)
  | applied found _ ih => cases found <;> exact ih
  | top => exact Formula.mentions_ofBool true
  | bot => exact Formula.mentions_ofBool false
  | name _ first =>
    obtain ⟨inside, _⟩ := List.getElem?_eq_some_iff.mp first.1
    exact List.forall_mem_singleton.mpr inside

namespace Monitor

/-- A monitor reads the propositions that its formula speaks of and no others. Two runs over
the same ticks, with observations that agree on these, have the same transcript: the same
answers, verdicts, residuals and records, one after another. No residual speaks of any other
proposition either, so those of a formula that was read over an alphabet stay inside it. -/
theorem reads_mentioned (φ : Formula) :
    (∀ calls others, List.Forall₂ (SameOn {i | i ∈ φ.atoms}) calls others →
        (ofFormula φ).transcript calls = (ofFormula φ).transcript others) ∧
      (∀ r ∈ Formula.residuals φ, ∀ i ∈ r.atoms, i ∈ φ.atoms) ∧
      ∀ text alphabet, parseFormula text alphabet = .ok φ →
        ∀ r ∈ Formula.residuals φ, ∀ i ∈ r.maxAtom?, i < alphabet.size := by
  have inside : ∀ r ∈ Formula.residuals φ, ∀ i ∈ r.atoms, i ∈ φ.atoms :=
    fun r member => Formula.mentions_residual member
  refine ⟨?_, inside, ?_⟩
  · intro calls others agree
    exact (speaks_ofFormula fun i member => member).transcript_congr agree
  · intro text alphabet read r member i largest
    obtain ⟨_, _, derives⟩ := parseFormula_eq_ok_iff.mp read
    have occurs : i ∈ r.atoms := List.max?_mem largest
    exact derives.mentions i (inside r member i occurs)

/-- Runs for `a U b` that differ in whether `c` holds, over a tick that is observed again and
one that is refused. At the end `a U b` is left. -/
theorem reads_mentioned_until :
    let φ := Formula.strongUntil (.atom 0) (.atom 1)
    (ofFormula φ).transcript [(1, .ofNat 1), (4, .ofNat 0), (4, .ofNat 1), (2, .ofNat 2)] =
        (ofFormula φ).transcript [(1, .ofNat 5), (4, .ofNat 4), (4, .ofNat 1), (2, .ofNat 6)] ∧
      parseFormula "a U b" ⟨["a", "b", "c"]⟩ = .ok φ ∧
      ∃ r ∈ Formula.residuals φ, 1 ∈ r.atoms ∧ 1 ∈ φ.atoms ∧ 1 ∈ r.maxAtom? ∧
        1 < (⟨["a", "b", "c"]⟩ : Alphabet).size := by
  intro φ
  have agree {tick n k : Nat} (same : ∀ i ∈ [0, 1], (Observation.ofNat n).get i =
      (Observation.ofNat k).get i) : SameOn {i | i ∈ φ.atoms} (tick, .ofNat n) (tick, .ofNat k) :=
    ⟨rfl, same⟩
  have read : parseFormula "a U b" ⟨["a", "b", "c"]⟩ = .ok φ := by decide +kernel
  have member : φ ∈ Formula.residuals φ :=
    ⟨_, (ofFormula φ).advance 1 (.ofNat 1), .accepted .start rfl, by decide +kernel⟩
  obtain ⟨congruent, mentioned, inside⟩ := reads_mentioned φ
  refine ⟨congruent _ _ ?_, read, φ, member, by decide, mentioned φ member 1 (by decide), rfl,
    inside _ _ read φ member 1 rfl⟩
  exact .cons (agree (by decide)) (.cons (agree (by decide)) (.cons (agree (by decide))
    (.cons (agree (by decide)) .nil)))

end Monitor

end TemporalRewards
