import Mathlib.Data.Set.Finite.List
import TemporalRewards.Proofs.Formula.Layers
import TemporalRewards.Proofs.Monitor.Soundness

/-! Which residuals a monitor can have. They speak of the propositions of the formula
only, so they are finitely many just when their size is bounded. They are if every
until of the formula is guarded, and they need not be otherwise. -/
namespace TemporalRewards

namespace Monitor

variable {φ : Formula} {m : Monitor} {calls entries : List (Tick × Observation)}

theorem baseAt_cases (m : Monitor) (tick : Tick) :
    m.baseAt tick = m.base ∨ m.baseAt tick = m.residual := by
  rw [baseAt]
  split
  · split <;> simp
  · exact Or.inl rfl

/-- What holds of the simplified formula and is kept by progression holds of every
base and residual. -/
theorem Reached.residual_of_step {p : Formula → Prop} (reached : Reached φ calls m)
    (start : p φ.simplify) (step : ∀ ψ, p ψ → ∀ o, p (ψ.progress o)) : p m.base ∧ p m.residual := by
  induction reached with
  | start => exact ⟨start, start⟩
  | @accepted _ m tick o _ _ _ accepted ih =>
    obtain ⟨_, _, rfl⟩ := observe_ok_iff.mp accepted
    have base : p (m.baseAt tick) := by
      rcases baseAt_cases m tick with same | same
      · exact same ▸ ih.1
      · exact same ▸ ih.2
    exact ⟨base, step _ base o⟩
  | refused _ refused ih =>
    obtain ⟨_, rfl⟩ := observe_error_iff.mp refused
    exact ih
  | reset reached _ =>
    rw [Monitor.reset, reached.formula_eq]
    exact ⟨start, start⟩

end Monitor

namespace Formula

/-- The residuals that a monitor of the formula can have. -/
def residuals (φ : Formula) : Set Formula :=
  {r | ∃ calls m, Monitor.Reached φ calls m ∧ m.residual = r}

section Size

variable {A : Set Nat} {φ ψ : Formula} {kind : Junction} {operands : List Formula}

/-- The formula speaks of propositions from a set. -/
def Mentions (A : Set Nat) (φ : Formula) : Prop := ∀ i ∈ φ.atoms, i ∈ A

theorem mentions_pair : (∀ i ∈ φ.atoms ++ ψ.atoms, i ∈ A) ↔ Mentions A φ ∧ Mentions A ψ :=
  List.forall_mem_append

theorem mentions_implies : Mentions A (implies φ ψ) ↔ Mentions A φ ∧ Mentions A ψ := by
  rw [Mentions, atoms, mentions_pair]

theorem mentions_strongUntil : Mentions A (strongUntil φ ψ) ↔ Mentions A φ ∧ Mentions A ψ := by
  rw [Mentions, atoms, mentions_pair]

theorem mentions_junction :
    Mentions A (junction kind operands) ↔ ∀ φ ∈ operands, Mentions A φ := by
  simp only [Mentions, atoms, atomsAll_eq_flatMap, List.mem_flatMap]
  exact ⟨fun every φ member i inside => every i ⟨φ, member, inside⟩,
    fun every i ⟨φ, member, inside⟩ => every φ member i inside⟩

theorem mentions_ofBool (b : Bool) : Mentions A (ofBool b) := by
  cases b <;> simp [Mentions, ofBool, atoms]

theorem mentions_nextOf (mentions : Mentions A φ) : Mentions A (nextOf φ) := by
  rcases nextOf_cases φ with same | same <;> rw [same] <;> exact mentions

theorem mentions_eventuallyOf (mentions : Mentions A φ) : Mentions A (eventuallyOf φ) := by
  rcases eventuallyOf_cases φ with same | same <;> rw [same] <;> exact mentions

theorem mentions_alwaysOf (mentions : Mentions A φ) : Mentions A (alwaysOf φ) := by
  rcases alwaysOf_cases φ with same | same <;> rw [same] <;> exact mentions

theorem mentions_negationOf (mentions : Mentions A φ) : Mentions A (negationOf φ) := by
  induction φ with
  | bot => exact mentions_ofBool true
  | top => exact mentions_ofBool false
  | atom | neg | junction | implies | strongUntil => exact mentions
  | next _ ih => exact mentions_nextOf (ih mentions)
  | eventually _ ih => exact mentions_alwaysOf (ih mentions)
  | always _ ih => exact mentions_eventuallyOf (ih mentions)

theorem mentions_junctionOf (each : ∀ φ ∈ operands, Mentions A φ) :
    Mentions A (junctionOf kind operands) :=
  junctionOf_of_forall mentions_ofBool (fun _ _ => mentions_junction) each

theorem mentions_impliesOf (mentionsφ : Mentions A φ) (mentionsψ : Mentions A ψ) :
    Mentions A (impliesOf φ ψ) := by
  rcases impliesOf_cases φ ψ with same | same | same | same
  · rw [same]; exact mentions_ofBool true
  · rwa [same]
  · rw [same]; exact mentions_negationOf mentionsφ
  · rw [same]; exact mentions_implies.mpr ⟨mentionsφ, mentionsψ⟩

theorem mentions_untilOf (mentionsφ : Mentions A φ) (mentionsψ : Mentions A ψ) :
    Mentions A (untilOf φ ψ) := by
  rcases untilOf_cases φ ψ with same | same | same | same
  · rwa [same]
  · rwa [same]
  · rw [same]; exact mentions_eventuallyOf mentionsψ
  · rw [same]; exact mentions_strongUntil.mpr ⟨mentionsφ, mentionsψ⟩

theorem mentions_simplify (mentions : Mentions A φ) : Mentions A φ.simplify := by
  induction φ with
  | bot | top | atom => rwa [simplify]
  | neg φ ih => rw [simplify]; exact mentions_negationOf (ih mentions)
  | junction kind operands ih =>
    rw [simplify_junction]
    exact mentions_junctionOf (List.forall_mem_map.mpr fun φ member =>
      ih φ member (mentions_junction.mp mentions φ member))
  | implies φ ψ ihφ ihψ =>
    obtain ⟨mentionsφ, mentionsψ⟩ := mentions_implies.mp mentions
    rw [simplify]
    exact mentions_impliesOf (ihφ mentionsφ) (ihψ mentionsψ)
  | next φ ih => rw [simplify]; exact mentions_nextOf (ih mentions)
  | eventually φ ih => rw [simplify]; exact mentions_eventuallyOf (ih mentions)
  | always φ ih => rw [simplify]; exact mentions_alwaysOf (ih mentions)
  | strongUntil φ ψ ihφ ihψ =>
    obtain ⟨mentionsφ, mentionsψ⟩ := mentions_strongUntil.mp mentions
    rw [simplify]
    exact mentions_untilOf (ihφ mentionsφ) (ihψ mentionsψ)

theorem mentions_progress (o : Observation) (mentions : Mentions A φ) :
    Mentions A (φ.progress o) := by
  induction φ with
  | bot | top => exact mentions
  | atom i => exact mentions_ofBool (o.get i)
  | neg φ ih => rw [progress_neg]; exact mentions_negationOf (ih mentions)
  | junction kind operands ih =>
    rw [progress_junction]
    exact mentions_junctionOf (List.forall_mem_map.mpr fun φ member =>
      ih φ member (mentions_junction.mp mentions φ member))
  | implies φ ψ ihφ ihψ =>
    obtain ⟨mentionsφ, mentionsψ⟩ := mentions_implies.mp mentions
    rw [progress_implies]
    exact mentions_impliesOf (ihφ mentionsφ) (ihψ mentionsψ)
  | next φ _ => rw [progress]; exact mentions_simplify mentions
  | eventually φ ih =>
    rw [progress]
    exact mentions_simplify (mentions_junction.mpr (forall_mem_pair.mpr ⟨ih mentions, mentions⟩))
  | always φ ih =>
    rw [progress]
    exact mentions_simplify (mentions_junction.mpr (forall_mem_pair.mpr ⟨ih mentions, mentions⟩))
  | strongUntil φ ψ ihφ ihψ =>
    obtain ⟨mentionsφ, mentionsψ⟩ := mentions_strongUntil.mp mentions
    rw [progress]
    exact mentions_simplify (mentions_junction.mpr (forall_mem_pair.mpr ⟨ihψ mentionsψ,
      mentions_junction.mpr (forall_mem_pair.mpr ⟨ihφ mentionsφ, mentions⟩)⟩))

/-- There are finitely many lists of bounded length over a finite set. -/
theorem finite_lists {X : Set Formula} (finite : X.Finite) (n : Nat) :
    {xs : List Formula | xs.length ≤ n ∧ ∀ φ ∈ xs, φ ∈ X}.Finite := by
  have := finite.to_subtype
  refine ((List.finite_length_le X n).image (List.map Subtype.val)).subset ?_
  rintro xs ⟨few, inside⟩
  refine ⟨xs.attachWith (· ∈ X) inside, ?_, List.attachWith_map_subtype_val inside⟩
  exact List.length_attachWith.trans_le few

/-- There are finitely many formulas of bounded size over finitely many propositions. -/
theorem finite_of_size (finite : A.Finite) (n : Nat) : {φ | φ.size ≤ n ∧ Mentions A φ}.Finite := by
  induction n with
  | zero =>
    apply Set.finite_empty.subset
    rintro φ ⟨small, _⟩
    have positive := size_pos φ
    omega
  | succ n ih =>
    have unary := (ih.image neg).union ((ih.image next).union ((ih.image eventually).union
      (ih.image always)))
    have binary := (ih.image2 implies ih).union (ih.image2 strongUntil ih)
    have lists := finite_lists ih n
    have junctions := (lists.image (junction .all)).union (lists.image (junction .any))
    have leaves := (complete_constants.finite).union (finite.image atom)
    refine (leaves.union (unary.union (binary.union junctions))).subset ?_
    rintro φ ⟨small, mentions⟩
    have below : ∀ {k : Nat}, k + 1 ≤ n + 1 → k ≤ n := Nat.le_of_succ_le_succ
    cases φ with
    | bot => exact Or.inl (Or.inl (Or.inl rfl))
    | top => exact Or.inl (Or.inl (Or.inr rfl))
    | atom i => exact Or.inl (Or.inr ⟨i, mentions i List.mem_cons_self, rfl⟩)
    | neg φ => exact Or.inr (Or.inl (Or.inl ⟨φ, ⟨below small, mentions⟩, rfl⟩))
    | next φ => exact Or.inr (Or.inl (Or.inr (Or.inl ⟨φ, ⟨below small, mentions⟩, rfl⟩)))
    | eventually φ =>
      exact Or.inr (Or.inl (Or.inr (Or.inr (Or.inl ⟨φ, ⟨below small, mentions⟩, rfl⟩))))
    | always φ =>
      exact Or.inr (Or.inl (Or.inr (Or.inr (Or.inr ⟨φ, ⟨below small, mentions⟩, rfl⟩))))
    | implies φ ψ =>
      obtain ⟨mentionsφ, mentionsψ⟩ := mentions_implies.mp mentions
      rw [size] at small
      exact Or.inr (Or.inr (Or.inl (Or.inl
        ⟨φ, ⟨by omega, mentionsφ⟩, ψ, ⟨by omega, mentionsψ⟩, rfl⟩)))
    | strongUntil φ ψ =>
      obtain ⟨mentionsφ, mentionsψ⟩ := mentions_strongUntil.mp mentions
      rw [size] at small
      exact Or.inr (Or.inr (Or.inl (Or.inr
        ⟨φ, ⟨by omega, mentionsφ⟩, ψ, ⟨by omega, mentionsψ⟩, rfl⟩)))
    | junction kind operands =>
      rw [size] at small
      have inside : ∀ φ ∈ operands, φ.size ≤ n ∧ Mentions A φ := fun φ member =>
        ⟨(size_le_sizeAll member).trans (below small), mentions_junction.mp mentions φ member⟩
      have few : operands.length ≤ n := (length_le_sizeAll operands).trans (below small)
      cases kind with
      | all => exact Or.inr (Or.inr (Or.inr (Or.inl ⟨operands, ⟨few, inside⟩, rfl⟩)))
      | any => exact Or.inr (Or.inr (Or.inr (Or.inr ⟨operands, ⟨few, inside⟩, rfl⟩)))

end Size

section Bounded

variable {φ : Formula}

theorem mentions_residual {r : Formula} (member : r ∈ residuals φ) :
    Mentions {i | i ∈ φ.atoms} r := by
  obtain ⟨calls, m, reached, rfl⟩ := member
  have start : Mentions {i | i ∈ φ.atoms} φ.simplify := mentions_simplify fun i member => member
  exact (reached.residual_of_step start fun ψ mentions o => mentions_progress o mentions).2

/-- Finitely many residuals are residuals of bounded size. -/
theorem finite_residuals_iff :
    (residuals φ).Finite ↔ ∃ bound, ∀ r ∈ residuals φ, r.size ≤ bound := by
  constructor
  · intro finite
    obtain ⟨bound, least⟩ := (finite.image size).bddAbove
    exact ⟨bound, fun r member => least ⟨r, member, rfl⟩⟩
  · rintro ⟨bound, small⟩
    apply (finite_of_size φ.atoms.finite_toSet bound).subset
    intro r member
    exact ⟨small r member, mentions_residual member⟩

theorem finite_residuals_of_guarded (guarded : GuardedUntils φ.simplify) :
    (residuals φ).Finite := by
  obtain ⟨S, complete, start⟩ := guarded.exists_complete (normal_simplify φ)
  refine complete.finite.subset ?_
  rintro r ⟨calls, m, reached, rfl⟩
  exact (reached.residual_of_step start complete.progress).2

/-- The residuals of a monitor are finitely many just when their size is bounded, and
they are if every until of the simplified formula has a side that is settled by a
bounded number of observations. -/
theorem residuals_bounded (φ : Formula) :
    ((residuals φ).Finite ↔ ∃ bound, ∀ r ∈ residuals φ, r.size ≤ bound) ∧
      (GuardedUntils φ.simplify → (residuals φ).Finite) :=
  ⟨finite_residuals_iff, finite_residuals_of_guarded⟩

/-- Next is settled after two observations, so it may stand beside an eventual obligation. -/
theorem residuals_bounded_next_until : (residuals (always (implies (atom 0)
    (strongUntil (next (atom 1)) (eventually (atom 2)))))).Finite := by
  have settled : SettledBy 2 (next (atom 1)) :=
    Within.settledBy (.next (.atom 1)) (.next (.atom 1) rfl)
  refine (residuals_bounded _).2 (.always (.implies (.atom 0) ?_))
  exact .strongUntil (.next (.atom 1)) (.eventually (.atom 2)) (Or.inl ⟨2, settled⟩)

end Bounded

section Growth

variable {φ ψ : Formula} {o : Observation}

/-- Every tick of a temporal monitor can be a new one. -/
theorem after_mem_residuals (temporal : φ.simplify.isTemporal = true) (os : List Observation) :
    φ.simplify.after os ∈ residuals φ := by
  let entries := (List.range os.length).zip os
  have ticks : entries.map (·.1) = List.range os.length :=
    List.map_fst_zip (by rw [List.length_range])
  have increasing := Monitor.increasing_of_ticks ticks
  refine ⟨entries, _, Monitor.reached_replay increasing, ?_⟩
  rw [Monitor.replay_temporal temporal increasing, List.map_snd_zip (by rw [List.length_range])]

/-- Two operands with different head operators, neither of them a leaf or a negation,
are kept as they are. -/
theorem junctionOf_pair {kind : Junction} (flatφ : kind.parts φ = [φ]) (flatψ : kind.parts ψ = [ψ])
    (heads : φ.headRank < ψ.headRank) (inner : 3 < φ.headRank) :
    junctionOf kind [φ, ψ] = junction kind [φ, ψ] := by
  have less : compare φ ψ = .lt := by
    rw [compare_eq, order.eq_def, Nat.compare_eq_lt.mpr heads]
    rfl
  have ranks : ∀ χ ∈ [φ, ψ], 3 < χ.headRank := forall_mem_pair.mpr ⟨inner, inner.trans heads⟩
  have tidy : Tidy kind [φ, ψ] :=
    { increasing := List.pairwise_pair.mpr less
      flat := forall_mem_pair.mpr ⟨flatφ, flatψ⟩
      undecided := fun member => absurd (ranks _ member) (by cases kind <;> decide)
      proper := fun member => absurd (ranks _ member) (by cases kind <;> decide)
      uncomplemented := Bool.eq_false_iff.mpr fun complement => by
        obtain ⟨χ, negated, _⟩ := hasComplement_iff.mp complement
        exact absurd (ranks _ negated) (by simp [headRank]) }
  rw [tidy.junctionOf_eq, closeJunction_eq (by simp)]

theorem junctionOf_swap (kind : Junction) (φ ψ : Formula) :
    junctionOf kind [φ, ψ] = junctionOf kind [ψ, φ] :=
  junctionOf_congr_mem fun χ => by simp only [List.mem_cons]; tauto

/-- The residuals of `F φ until G ψ` while neither side changes: one layer for each tick. -/
def tower (φ ψ : Formula) : Nat → Formula
  | 0 => strongUntil (eventually φ) (always ψ)
  | n + 1 => junction .any [junctionOf .all [eventually φ, tower φ ψ n], always ψ]

theorem guard_tower (φ ψ : Formula) (n : Nat) : ∃ operands, (tower φ ψ n).size ≤ sizeAll operands ∧
    junctionOf .all [eventually φ, tower φ ψ n] = junction .all operands := by
  cases n with
  | zero =>
    refine ⟨[eventually φ, tower φ ψ 0], size_le_sizeAll (by simp), ?_⟩
    exact junctionOf_pair rfl rfl (by simp [tower, headRank]) (by simp [headRank])
  | succ n =>
    refine ⟨[tower φ ψ (n + 1), eventually φ], size_le_sizeAll (by simp), ?_⟩
    rw [junctionOf_swap]
    exact junctionOf_pair rfl rfl (by simp [tower, headRank]) (by simp [tower, headRank])

theorem tower_succ (φ ψ : Formula) (n : Nat) : tower φ ψ (n + 1) =
    junctionOf .any [junctionOf .all [eventually φ, tower φ ψ n], always ψ] := by
  obtain ⟨operands, _, guarded⟩ := guard_tower φ ψ n
  rw [tower, guarded]
  exact (junctionOf_pair rfl rfl (by simp [headRank]) (by simp [headRank])).symm

theorem le_size_tower (φ ψ : Formula) (n : Nat) : n ≤ (tower φ ψ n).size := by
  induction n with
  | zero => exact Nat.zero_le _
  | succ n ih =>
    obtain ⟨operands, larger, guarded⟩ := guard_tower φ ψ n
    rw [tower, guarded]
    simp only [size, sizeAll]
    omega

/-- An observation that leaves `F φ` and `G ψ` as they are adds a layer. -/
theorem progress_tower (normalφ : Normal (eventually φ)) (normalψ : Normal (always ψ))
    (missed : φ.progress o = bot) (kept : ψ.progress o = top) (n : Nat) :
    (tower φ ψ n).progress o = tower φ ψ (n + 1) := by
  have stayφ : (eventually φ).progress o = eventually φ := by
    rw [progress_eventually normalφ, missed]
    exact junctionOf_identity_pair normalφ
  have stayψ : (always ψ).progress o = always ψ := by
    rw [progress_always normalψ, kept]
    exact junctionOf_identity_pair normalψ
  induction n with
  | zero =>
    rw [tower_succ, tower, progress_strongUntil (.strongUntil normalφ normalψ rfl), stayφ, stayψ,
      junctionOf_swap]
  | succ n ih =>
    have passes : (junctionOf .all [eventually φ, tower φ ψ n]).progress o =
        junctionOf .all [eventually φ, tower φ ψ (n + 1)] := by
      rcases progress_junctionOf .all [eventually φ, tower φ ψ n] o with decided | passes
      · obtain ⟨operands, _, guarded⟩ := guard_tower φ ψ n
        rw [guarded] at decided
        contradiction
      · rw [passes, List.map_cons, List.map_singleton, stayφ, ih]
    calc (tower φ ψ (n + 1)).progress o
        = (junction .any [junctionOf .all [eventually φ, tower φ ψ n], always ψ]).progress o := rfl
      _ = junctionOf .any [junctionOf .all [eventually φ, tower φ ψ (n + 1)], always ψ] := by
          rw [progress_junction, List.map_cons, List.map_singleton, passes, stayψ]
      _ = tower φ ψ (n + 1 + 1) := (tower_succ φ ψ (n + 1)).symm

theorem tower_mem_residuals (normalφ : Normal (eventually φ)) (normalψ : Normal (always ψ))
    (missed : φ.progress o = bot) (kept : ψ.progress o = top) (n : Nat) :
    tower φ ψ n ∈ residuals (strongUntil (eventually φ) (always ψ)) := by
  have normal : Normal (strongUntil (eventually φ) (always ψ)) := .strongUntil normalφ normalψ rfl
  have reached : ∀ n, (tower φ ψ 0).after (List.replicate n o) = tower φ ψ n := by
    intro n
    induction n with
    | zero => rfl
    | succ n ih =>
      rw [List.replicate_succ', after_append, ih, progress_tower normalφ normalψ missed kept]
  have member := after_mem_residuals (φ := tower φ ψ 0) (by rw [tower, normal.simplify_eq]; rfl)
    (List.replicate n o)
  rwa [tower, normal.simplify_eq, ← tower, reached] at member

/-- `F a until G b` keeps every tick at which only `b` holds: its residuals grow without
a bound, so they are infinitely many. -/
theorem infinite_residuals_until :
    ¬ (residuals (strongUntil (eventually (atom 0)) (always (atom 1)))).Finite ∧
      ¬ ∃ bound, ∀ r ∈ residuals (strongUntil (eventually (atom 0)) (always (atom 1))),
        r.size ≤ bound := by
  have grows : ¬ ∃ bound, ∀ r ∈ residuals (strongUntil (eventually (atom 0)) (always (atom 1))),
      r.size ≤ bound := by
    rintro ⟨bound, small⟩
    have member := tower_mem_residuals (o := .ofNat 2) (.eventually (.atom 0) rfl)
      (.always (.atom 1) rfl) (by decide) (by decide) (bound + 1)
    have large := le_size_tower (atom 0) (atom 1) (bound + 1)
    have limit := small _ member
    omega
  exact ⟨fun finite => grows (finite_residuals_iff.mp finite), grows⟩

end Growth

end Formula

end TemporalRewards
