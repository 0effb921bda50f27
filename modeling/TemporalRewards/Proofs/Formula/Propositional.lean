import TemporalRewards.Proofs.Formula.Satisfaction

/-! Formulas without temporal operators. Their truth value at the first
observation is all that a behaviour has to say about them, and progression
leaves that value as a constant. -/
namespace TemporalRewards.Formula

theorem negationOf_ofBool (b : Bool) : negationOf (ofBool b) = ofBool (!b) := by
  cases b <;> rfl

theorem impliesOf_ofBool (a b : Bool) : impliesOf (ofBool a) (ofBool b) = ofBool (!a || b) := by
  cases a <;> cases b <;> rfl

@[simp] theorem simplify_ofBool (b : Bool) : (ofBool b).simplify = ofBool b := by
  cases b <;> rfl

@[simp] theorem parts_ofBool (kind : Junction) (b : Bool) : kind.parts (ofBool b) = [ofBool b] := by
  cases b <;> rfl

/-- The truth value of a junction of truth values. -/
def junctionValue : Junction → List Bool → Bool
  | .all, values => values.all id
  | .any, values => values.any id

theorem junctionOf_ofBool (kind : Junction) (values : List Bool) :
    junctionOf kind (values.map ofBool) = ofBool (junctionValue kind values) := by
  have flat : (values.map ofBool).flatMap kind.parts = values.map ofBool := by
    simp only [List.flatMap_map, parts_ofBool, ← List.map_eq_flatMap]
  rw [junctionOf_eq, flat]
  split
  · rename_i decided
    obtain ⟨b, member, same⟩ := List.mem_map.mp decided
    cases kind <;> cases b <;> simp only [ofBool, Junction.absorbing, reduceCtorEq] at same
    · rw [junctionValue, List.all_eq_false.mpr ⟨false, member, by decide⟩]; rfl
    · rw [junctionValue, List.any_eq_true.mpr ⟨true, member, rfl⟩]; rfl
  · rename_i undecided
    have kept : keptOperands kind (values.map ofBool) = [] := by
      apply List.eq_nil_iff_forall_not_mem.mpr
      intro φ member
      obtain ⟨present, other⟩ := mem_keptOperands.mp member
      rw [flat] at present
      obtain ⟨b, _, rfl⟩ := List.mem_map.mp present
      cases kind <;> cases b <;> first | exact other rfl | exact undecided present
    have constant : ∀ b ∈ values, ofBool b ≠ kind.absorbing := by
      intro b member same
      apply undecided
      rw [← same]
      exact List.mem_map_of_mem member
    rw [kept]
    cases kind with
    | all =>
      rw [junctionValue, List.all_eq_true.mpr ?_]
      · rfl
      · intro b member
        cases b with
        | false => exact absurd rfl (constant false member)
        | true => rfl
    | any =>
      rw [junctionValue, List.any_eq_false.mpr ?_]
      · rfl
      · intro b member
        cases b with
        | false => decide
        | true => exact absurd rfl (constant true member)

theorem evaluate?_junction (o : Observation) (kind : Junction) (operands : List Formula) :
    (junction kind operands).evaluate? o = (evaluateAll? o operands).map (junctionValue kind) := by
  cases kind <;> rfl

/-- Without temporal operators there is a value, and progression leaves it. -/
theorem progress_propositional {φ : Formula} (h : φ.isTemporal = false) (o : Observation) :
    ∃ b, φ.evaluate? o = some b ∧ φ.progress o = ofBool b := by
  induction φ with
  | bot => exact ⟨false, rfl, rfl⟩
  | top => exact ⟨true, rfl, rfl⟩
  | atom i => exact ⟨o.get i, rfl, rfl⟩
  | neg φ ih =>
    obtain ⟨b, value, left⟩ := ih h
    refine ⟨!b, ?_, ?_⟩
    · rw [evaluate?, value]
      rfl
    · rw [progress, left, simplify, simplify_ofBool, negationOf_ofBool]
  | junction kind operands ih =>
    rw [isTemporal, anyTemporal_eq_any, List.any_eq_false] at h
    have each : ∃ values, evaluateAll? o operands = some values ∧
        operands.map (progress o) = values.map ofBool := by
      induction operands with
      | nil => exact ⟨[], rfl, rfl⟩
      | cons φ rest more =>
        have plain : φ.isTemporal = false := by simpa using h φ List.mem_cons_self
        obtain ⟨b, value, left⟩ := ih φ List.mem_cons_self plain
        obtain ⟨values, others, lefts⟩ := more
          (fun ψ member => ih ψ (List.mem_cons_of_mem φ member))
          (fun ψ member => h ψ (List.mem_cons_of_mem φ member))
        refine ⟨b :: values, ?_, ?_⟩
        · rw [evaluateAll?, value, others]
          rfl
        · rw [List.map_cons, left, lefts, List.map_cons]
    obtain ⟨values, value, left⟩ := each
    refine ⟨junctionValue kind values, ?_, ?_⟩
    · rw [evaluate?_junction, value]
      rfl
    · rw [progress, progressAll_eq_map, left, simplify_junction, List.map_map,
        ← junctionOf_ofBool]
      exact congrArg (junctionOf kind) (List.map_congr_left fun b _ => simplify_ofBool b)
  | implies φ ψ ihφ ihψ =>
    rw [isTemporal, Bool.or_eq_false_iff] at h
    obtain ⟨a, valueφ, leftφ⟩ := ihφ h.1
    obtain ⟨b, valueψ, leftψ⟩ := ihψ h.2
    refine ⟨!a || b, ?_, ?_⟩
    · rw [evaluate?, valueφ, valueψ]
      rfl
    · rw [progress, leftφ, leftψ, simplify, simplify_ofBool, simplify_ofBool, impliesOf_ofBool]
  | next | eventually | always | strongUntil => contradiction

/-- A formula without temporal operators is settled by the first observation. -/
theorem satisfies_iff_evaluate? {φ : Formula} (h : φ.isTemporal = false) {σ : Behaviour} :
    φ.Satisfies σ ↔ φ.evaluate? (σ 0) = some true := by
  obtain ⟨b, value, left⟩ := progress_propositional h (σ 0)
  rw [← satisfies_progress, left, satisfies_ofBool, value, Option.some.injEq]

end TemporalRewards.Formula
