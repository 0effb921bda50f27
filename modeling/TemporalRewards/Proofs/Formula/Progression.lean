import TemporalRewards.Proofs.Formula.Normal

/-! Progression of normal formulas. What a junction becomes depends only on which
operands it has, nested junctions of one kind are one junction, and progression
passes through a junction to its operands unless the junction is decided already. -/
namespace TemporalRewards.Formula

section Junctions

variable {kind : Junction} {xs ys operands : List Formula} {φ : Formula} {o : Observation}

theorem absorbing_ne_identity (kind : Junction) : kind.absorbing ≠ kind.identity := by
  cases kind <;> decide

theorem parts_absorbing (kind : Junction) : kind.parts kind.absorbing = [kind.absorbing] := by
  cases kind <;> rfl

theorem parts_identity (kind : Junction) : kind.parts kind.identity = [kind.identity] := by
  cases kind <;> rfl

/-- Sorted lists without repetition that have the same elements are the same list. -/
theorem Increasing.eq_of_mem_iff (increasingX : Increasing xs) (increasingY : Increasing ys)
    (same : ∀ φ, φ ∈ xs ↔ φ ∈ ys) : xs = ys := by
  have perm : xs.Perm ys := by
    rw [List.perm_ext_iff_of_nodup increasingX.nodup increasingY.nodup]
    exact same
  refine perm.eq_of_pairwise ?_ increasingX increasingY
  intro φ ψ _ _ less more
  have never := Std.TransCmp.lt_trans less more
  have equal : compare φ φ = .eq := Std.ReflCmp.compare_self
  rw [equal] at never
  contradiction

theorem keptOperands_congr
    (same : ∀ φ ≠ kind.identity, φ ∈ xs.flatMap kind.parts ↔ φ ∈ ys.flatMap kind.parts) :
    keptOperands kind xs = keptOperands kind ys := by
  apply (increasing_sortOperands _).eq_of_mem_iff (increasing_sortOperands _)
  intro φ
  exact mem_keptOperands.trans ((and_congr_left (same φ)).trans mem_keptOperands.symm)

/-- A junction depends only on which parts its operands have. -/
theorem junctionOf_congr
    (same : ∀ φ ≠ kind.identity, φ ∈ xs.flatMap kind.parts ↔ φ ∈ ys.flatMap kind.parts) :
    junctionOf kind xs = junctionOf kind ys := by
  rw [junctionOf_eq, junctionOf_eq, keptOperands_congr same]
  simp only [same _ (absorbing_ne_identity kind)]

theorem junctionOf_congr_mem (same : ∀ φ, φ ∈ xs ↔ φ ∈ ys) :
    junctionOf kind xs = junctionOf kind ys :=
  junctionOf_congr fun φ _ => by simp only [List.mem_flatMap, same]

/-- More operands cannot undo a decision. -/
theorem Absorbed.mono (absorbed : Absorbed kind xs)
    (more : ∀ φ ∈ xs.flatMap kind.parts, φ ∈ ys.flatMap kind.parts) : Absorbed kind ys := by
  rcases absorbed with decided | complement
  · exact Or.inl (more _ decided)
  · obtain ⟨φ, negated, plain⟩ := hasComplement_iff.mp complement
    rw [mem_keptOperands] at negated plain
    exact Or.inr (hasComplement_iff.mpr ⟨φ, mem_keptOperands.mpr ⟨more _ negated.1, negated.2⟩,
      mem_keptOperands.mpr ⟨more _ plain.1, plain.2⟩⟩)

theorem mem_parts_closeJunction (tidy : Tidy kind operands) (proper : φ ≠ kind.identity) :
    φ ∈ kind.parts (closeJunction kind operands) ↔ φ ∈ operands := by
  match operands with
  | [] =>
    rw [closeJunction, parts_identity, List.mem_singleton]
    constructor
    · intro same
      exact absurd same proper
    · intro member
      contradiction
  | [ψ] => rw [closeJunction, tidy.flat ψ List.mem_cons_self]
  | _ :: _ :: _ => rw [closeJunction_eq (by simp), parts_junction]

/-- A junction that is not decided has the parts that its operands have. -/
theorem mem_parts_junctionOf (normal : ∀ φ ∈ xs, Normal φ) (undecided : ¬ Absorbed kind xs)
    (proper : φ ≠ kind.identity) :
    φ ∈ kind.parts (junctionOf kind xs) ↔ φ ∈ xs.flatMap kind.parts := by
  rw [junctionOf_of_not_absorbed undecided,
    mem_parts_closeJunction (tidy_keptOperands normal undecided) proper, mem_keptOperands,
    and_iff_left proper]

theorem junctionOf_absorbing_cons (xs : List Formula) :
    junctionOf kind (kind.absorbing :: xs) = kind.absorbing := by
  apply junctionOf_of_absorbed
  left
  rw [List.flatMap_cons, parts_absorbing]
  exact List.mem_append_left _ List.mem_cons_self

/-- A junction inside a junction of the same kind gives its operands away. -/
theorem junctionOf_junctionOf (kind : Junction) (normal : ∀ φ ∈ xs, Normal φ)
    (ys : List Formula) :
    junctionOf kind (junctionOf kind xs :: ys) = junctionOf kind (xs ++ ys) := by
  by_cases absorbed : Absorbed kind xs
  · rw [junctionOf_of_absorbed absorbed, junctionOf_absorbing_cons, junctionOf_of_absorbed]
    apply absorbed.mono
    intro φ member
    rw [List.flatMap_append]
    exact List.mem_append_left _ member
  · apply junctionOf_congr
    intro φ proper
    rw [List.flatMap_cons, List.flatMap_append, List.mem_append, List.mem_append,
      mem_parts_junctionOf normal absorbed proper]

theorem junctionOf_append_map (kind : Junction) (inner : Formula → List Formula)
    (normal : ∀ φ ∈ xs, ∀ χ ∈ inner φ, Normal χ) (ys : List Formula) :
    junctionOf kind (ys ++ xs.map fun φ => junctionOf kind (inner φ)) =
      junctionOf kind (ys ++ xs.flatMap inner) := by
  induction xs generalizing ys with
  | nil => rfl
  | cons φ rest ih =>
    obtain ⟨first, others⟩ := List.forall_mem_cons.mp normal
    calc junctionOf kind (ys ++ (φ :: rest).map fun φ => junctionOf kind (inner φ))
        = junctionOf kind (junctionOf kind (inner φ) ::
            (ys ++ rest.map fun φ => junctionOf kind (inner φ))) :=
          junctionOf_congr_mem fun χ => by
            simp only [List.map_cons, List.mem_append, List.mem_cons]
            exact or_left_comm
      _ = junctionOf kind (inner φ ++ (ys ++ rest.map fun φ => junctionOf kind (inner φ))) :=
          junctionOf_junctionOf kind first _
      _ = junctionOf kind ((inner φ ++ ys) ++ rest.flatMap inner) := by
          rw [← List.append_assoc]
          exact ih others (inner φ ++ ys)
      _ = junctionOf kind (ys ++ (φ :: rest).flatMap inner) :=
          junctionOf_congr_mem fun χ => by
            simp only [List.flatMap_cons, List.mem_append]
            tauto

/-- The same for any number of inner junctions. -/
theorem junctionOf_map_junctionOf (kind : Junction) (inner : Formula → List Formula)
    (normal : ∀ φ ∈ xs, ∀ χ ∈ inner φ, Normal χ) :
    junctionOf kind (xs.map fun φ => junctionOf kind (inner φ)) =
      junctionOf kind (xs.flatMap inner) :=
  junctionOf_append_map kind inner normal []

theorem junctionOf_singleton (normal : Normal φ) : junctionOf kind [φ] = φ := by
  rcases parts_cases kind φ with single | ⟨operands, rfl⟩
  · by_cases decided : φ = kind.absorbing
    · rw [decided, junctionOf_absorbing_cons]
    by_cases empty : φ = kind.identity
    · rw [empty]
      cases kind <;> rfl
    · have tidy : Tidy kind [φ] :=
        { increasing := List.pairwise_singleton _ _
          flat := List.forall_mem_singleton.mpr single
          undecided := fun member => decided (List.mem_singleton.mp member).symm
          proper := fun member => empty (List.mem_singleton.mp member).symm
          uncomplemented := Bool.eq_false_iff.mpr fun complement => by
            obtain ⟨χ, negated, plain⟩ := hasComplement_iff.mp complement
            rw [List.mem_singleton] at negated plain
            rw [plain] at negated
            have larger := congrArg size negated
            simp [size] at larger }
      rw [tidy.junctionOf_eq]
      rfl
  · cases normal with
    | junction normal tidy several =>
      have whole : junctionOf kind operands = junction kind operands := by
        rw [tidy.junctionOf_eq, closeJunction_eq several]
      have nested := junctionOf_junctionOf kind normal []
      rwa [List.append_nil, whole] at nested

theorem junctionOf_identity_cons (xs : List Formula) :
    junctionOf kind (kind.identity :: xs) = junctionOf kind xs := by
  apply junctionOf_congr
  intro χ proper
  rw [List.flatMap_cons, parts_identity, List.mem_append, List.mem_singleton, or_iff_right proper]

theorem junctionOf_identity_pair (normal : Normal φ) :
    junctionOf kind [kind.identity, φ] = φ :=
  (junctionOf_identity_cons [φ]).trans (junctionOf_singleton normal)

theorem absorbing_eq_ofBool (kind : Junction) : ∃ b, kind.absorbing = ofBool b := by
  cases kind with
  | all => exact ⟨false, rfl⟩
  | any => exact ⟨true, rfl⟩

theorem identity_eq_ofBool (kind : Junction) : ∃ b, kind.identity = ofBool b := by
  cases kind with
  | all => exact ⟨true, rfl⟩
  | any => exact ⟨false, rfl⟩

/-- The only operand that is kept is one of the given ones: a junction among them
would have left several. -/
theorem mem_of_keptOperands_eq (normal : ∀ φ ∈ xs, Normal φ) (kept : keptOperands kind xs = [φ]) :
    φ ∈ xs := by
  have only : ∀ χ, χ ∈ xs.flatMap kind.parts → χ ≠ kind.identity → χ = φ := by
    intro χ member proper
    have inside := mem_keptOperands.mpr ⟨member, proper⟩
    rwa [kept, List.mem_singleton] at inside
  have member : φ ∈ keptOperands kind xs := kept ▸ List.mem_cons_self
  obtain ⟨χ, present, part⟩ := List.mem_flatMap.mp (mem_keptOperands.mp member).1
  rcases parts_cases kind χ with single | ⟨operands, rfl⟩
  · rw [single, List.mem_singleton] at part
    rwa [part]
  · cases normal _ present with
    | junction _ tidy several =>
      have same : ∀ ψ ∈ operands, ψ = φ := by
        intro ψ inside
        have proper : ψ ≠ kind.identity := by
          rintro rfl
          exact tidy.proper inside
        exact only ψ (List.mem_flatMap.mpr ⟨_, present, by rwa [parts_junction]⟩) proper
      match operands, several with
      | ψ :: χ :: _, _ =>
        have distinct := (List.nodup_cons.mp tidy.increasing.nodup).1
        rw [same ψ List.mem_cons_self] at distinct
        exact absurd (List.mem_cons.mpr (Or.inl (same χ (by simp)).symm)) distinct

/-- A junction that is decided or that keeps one operand is not a junction any more. -/
theorem junctionOf_cases (normal : ∀ φ ∈ xs, Normal φ) :
    (∃ b, junctionOf kind xs = ofBool b) ∨ junctionOf kind xs ∈ xs ∨
      ∃ operands, junctionOf kind xs = junction kind operands := by
  by_cases absorbed : Absorbed kind xs
  · rw [junctionOf_of_absorbed absorbed]
    exact Or.inl (absorbing_eq_ofBool kind)
  · rw [junctionOf_of_not_absorbed absorbed]
    match kept : keptOperands kind xs with
    | [] => exact Or.inl (identity_eq_ofBool kind)
    | [φ] => exact Or.inr (Or.inl (mem_of_keptOperands_eq normal kept))
    | _ :: _ :: _ => exact Or.inr (Or.inr ⟨_, rfl⟩)

/-- What holds of constants and of a junction just when it holds of the operands is
kept when a junction is made. -/
theorem junctionOf_of_forall {p : Formula → Prop} (constant : ∀ b, p (ofBool b))
    (junction : ∀ kind operands, p (junction kind operands) ↔ ∀ φ ∈ operands, p φ)
    (each : ∀ φ ∈ xs, p φ) : p (junctionOf kind xs) := by
  by_cases absorbed : Absorbed kind xs
  · obtain ⟨b, same⟩ := absorbing_eq_ofBool kind
    rw [junctionOf_of_absorbed absorbed, same]
    exact constant b
  · have kept : ∀ χ ∈ keptOperands kind xs, p χ := by
      intro χ member
      obtain ⟨φ, present, part⟩ := List.mem_flatMap.mp (mem_keptOperands.mp member).1
      rcases parts_cases kind φ with single | ⟨operands, rfl⟩
      · rw [single, List.mem_singleton] at part
        exact part ▸ each φ present
      · rw [parts_junction] at part
        exact (junction kind operands).mp (each _ present) χ part
    rw [junctionOf_of_not_absorbed absorbed]
    match keptOperands kind xs, kept with
    | [], _ =>
      obtain ⟨b, same⟩ := identity_eq_ofBool kind
      rw [closeJunction, same]
      exact constant b
    | [φ], kept => exact kept φ List.mem_cons_self
    | _ :: _ :: _, kept => exact (junction _ _).mpr kept

end Junctions

section Temporal

variable {kind : Junction} {xs operands : List Formula} {φ : Formula}

theorem Normal.isTemporal_negationOf (normal : Normal φ) :
    (negationOf φ).isTemporal = φ.isTemporal := by
  have keeps (φ : Formula) (plain : φ.isTemporal = false) : (negationOf φ).isTemporal = false := by
    cases φ with
    | bot | top => rfl
    | neg | atom | junction | implies => exact plain
    | next | eventually | always | strongUntil => contradiction
  cases temporal : φ.isTemporal with
  | false => exact keeps φ temporal
  | true =>
    by_contra plain
    have back := keeps (negationOf φ) (Bool.eq_false_iff.mpr plain)
    rw [normal.negationOf_negationOf, temporal] at back
    contradiction

theorem isTemporal_junction :
    (junction kind operands).isTemporal = true ↔ ∃ φ ∈ operands, φ.isTemporal = true := by
  rw [isTemporal, anyTemporal_eq_any, List.any_eq_true]

/-- A junction that is not decided is temporal if one of its operands is. -/
theorem isTemporal_junctionOf (undecided : ¬ Absorbed kind xs) :
    (junctionOf kind xs).isTemporal = true ↔ ∃ φ ∈ xs, φ.isTemporal = true := by
  have closed (operands : List Formula) : (closeJunction kind operands).isTemporal = true ↔
      ∃ φ ∈ operands, φ.isTemporal = true := by
    match operands with
    | [] => cases kind <;> simp [closeJunction, Junction.identity, isTemporal]
    | [φ] => simp [closeJunction]
    | _ :: _ :: _ => exact isTemporal_junction
  have parts (φ : Formula) : φ.isTemporal = true ↔ ∃ ψ ∈ kind.parts φ, ψ.isTemporal = true := by
    rcases parts_cases kind φ with single | ⟨operands, rfl⟩
    · simp [single]
    · rw [parts_junction, isTemporal_junction]
  rw [junctionOf_of_not_absorbed undecided, closed]
  constructor
  · rintro ⟨ψ, kept, temporal⟩
    obtain ⟨φ, present, part⟩ := List.mem_flatMap.mp (mem_keptOperands.mp kept).1
    exact ⟨φ, present, (parts φ).mpr ⟨ψ, part, temporal⟩⟩
  · rintro ⟨φ, present, temporal⟩
    obtain ⟨ψ, part, temporal⟩ := (parts φ).mp temporal
    refine ⟨ψ, mem_keptOperands.mpr ⟨List.mem_flatMap.mpr ⟨φ, present, part⟩, ?_⟩, temporal⟩
    rintro rfl
    cases kind <;> contradiction

/-- Simplification makes no temporal operators. -/
theorem isTemporal_simplify (plain : φ.isTemporal = false) : φ.simplify.isTemporal = false := by
  induction φ with
  | bot | top | atom => rw [simplify]; exact plain
  | neg φ ih =>
    rw [simplify, (normal_simplify φ).isTemporal_negationOf]
    exact ih plain
  | junction kind operands ih =>
    rw [simplify_junction]
    by_cases absorbed : Absorbed kind (operands.map simplify)
    · rw [junctionOf_of_absorbed absorbed]
      cases kind <;> rfl
    · rw [Bool.eq_false_iff, ne_eq, isTemporal_junction] at plain
      rw [Bool.eq_false_iff, ne_eq, isTemporal_junctionOf absorbed]
      rintro ⟨_, member, temporal⟩
      obtain ⟨φ, present, rfl⟩ := List.mem_map.mp member
      have inside : φ.isTemporal = false :=
        Bool.eq_false_iff.mpr fun temporal => plain ⟨φ, present, temporal⟩
      rw [ih φ present inside] at temporal
      contradiction
  | implies φ ψ ihφ ihψ =>
    obtain ⟨plainφ, plainψ⟩ := Bool.or_eq_false_iff.mp plain
    rw [simplify]
    rcases impliesOf_cases φ.simplify ψ.simplify with same | same | same | same <;> rw [same]
    · rfl
    · exact ihψ plainψ
    · rw [(normal_simplify φ).isTemporal_negationOf, ihφ plainφ]
    · exact Bool.or_eq_false_iff.mpr ⟨ihφ plainφ, ihψ plainψ⟩
  | next | eventually | always | strongUntil => contradiction

end Temporal

section Progress

variable {φ ψ : Formula}

theorem normal_progress (φ : Formula) (o : Observation) : Normal (φ.progress o) := by
  cases φ with
  | bot => rw [progress]; exact .bot
  | top => rw [progress]; exact .top
  | atom i => rw [progress]; exact normal_ofBool _
  | neg | junction | implies | next | eventually | always | strongUntil =>
    rw [progress]
    exact normal_simplify _

theorem progress_neg (φ : Formula) (o : Observation) :
    (neg φ).progress o = negationOf (φ.progress o) := by
  rw [progress, simplify, (normal_progress φ o).simplify_eq]

theorem progress_junction (kind : Junction) (operands : List Formula) (o : Observation) :
    (junction kind operands).progress o = junctionOf kind (operands.map (progress o)) := by
  have normal : (operands.map (progress o)).map simplify = operands.map (progress o) := by
    rw [List.map_map]
    apply List.map_congr_left
    intro φ _
    exact (normal_progress φ o).simplify_eq
  rw [progress, progressAll_eq_map, simplify_junction, normal]

theorem progress_implies (φ ψ : Formula) (o : Observation) :
    (implies φ ψ).progress o = impliesOf (φ.progress o) (ψ.progress o) := by
  rw [progress, simplify, (normal_progress φ o).simplify_eq, (normal_progress ψ o).simplify_eq]

theorem progress_next (normal : Normal φ) (o : Observation) : (next φ).progress o = φ := by
  rw [progress, normal.simplify_eq]

theorem progress_eventually (normal : Normal (eventually φ)) (o : Observation) :
    (eventually φ).progress o = junctionOf .any [φ.progress o, eventually φ] := by
  rw [progress, Formula.or, simplify_pair, normal.simplify_eq, (normal_progress φ o).simplify_eq]

theorem progress_always (normal : Normal (always φ)) (o : Observation) :
    (always φ).progress o = junctionOf .all [φ.progress o, always φ] := by
  rw [progress, Formula.and, simplify_pair, normal.simplify_eq, (normal_progress φ o).simplify_eq]

theorem progress_strongUntil (normal : Normal (strongUntil φ ψ)) (o : Observation) :
    (strongUntil φ ψ).progress o = junctionOf .any
      [ψ.progress o, junctionOf .all [φ.progress o, strongUntil φ ψ]] := by
  rw [progress, Formula.or, Formula.and, simplify_pair, simplify_pair, normal.simplify_eq,
    (normal_progress φ o).simplify_eq, (normal_progress ψ o).simplify_eq]

theorem progress_closeJunction (kind : Junction) (operands : List Formula) (o : Observation) :
    (closeJunction kind operands).progress o = junctionOf kind (operands.map (progress o)) := by
  match operands with
  | [] => cases kind <;> rfl
  | [φ] => rw [closeJunction, List.map_singleton, junctionOf_singleton (normal_progress φ o)]
  | _ :: _ :: _ => rw [closeJunction_eq (by simp), progress_junction]

/-- A junction that is not decided yet progresses to the junction of what its
operands progress to. -/
theorem progress_junctionOf_of_not_absorbed {kind : Junction} {xs : List Formula}
    (proper : ¬ Absorbed kind xs) (o : Observation) :
    (junctionOf kind xs).progress o = junctionOf kind (xs.map (progress o)) := by
  have inner : ∀ φ ∈ xs, φ.progress o = junctionOf kind ((kind.parts φ).map (progress o)) := by
    intro φ _
    rcases parts_cases kind φ with single | ⟨operands, rfl⟩
    · rw [single, List.map_singleton, junctionOf_singleton (normal_progress φ o)]
    · rw [parts_junction, progress_junction]
  rw [junctionOf_of_not_absorbed proper, progress_closeJunction, List.map_congr_left inner]
  have flat : ∀ φ ∈ xs, ∀ χ ∈ (kind.parts φ).map (progress o), Normal χ := by
    intro φ _ χ member
    obtain ⟨ψ, _, rfl⟩ := List.mem_map.mp member
    exact normal_progress ψ o
  rw [junctionOf_map_junctionOf kind _ flat, ← List.map_flatMap]
  -- The operands that are not kept are the identity, which progresses to itself.
  have stays : kind.identity.progress o = kind.identity := by cases kind <;> rfl
  apply junctionOf_congr
  intro χ proper
  rw [List.flatMap_map, List.flatMap_map, List.mem_flatMap, List.mem_flatMap]
  constructor
  · rintro ⟨ψ, kept, part⟩
    exact ⟨ψ, (mem_keptOperands.mp kept).1, part⟩
  · rintro ⟨ψ, member, part⟩
    refine ⟨ψ, mem_keptOperands.mpr ⟨member, ?_⟩, part⟩
    rintro rfl
    rw [stays, parts_identity, List.mem_singleton] at part
    exact proper part

theorem progress_junctionOf (kind : Junction) (xs : List Formula) (o : Observation) :
    junctionOf kind xs = kind.absorbing ∨
      (junctionOf kind xs).progress o = junctionOf kind (xs.map (progress o)) := by
  by_cases absorbed : Absorbed kind xs
  · exact Or.inl (junctionOf_of_absorbed absorbed)
  · exact Or.inr (progress_junctionOf_of_not_absorbed absorbed o)

end Progress

end TemporalRewards.Formula
