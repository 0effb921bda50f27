import TemporalRewards.Labelling.Rule

/-! Evaluation of rules in order. A table gives values just when every rule, in the scope
of the values before its own, gives its value. -/
namespace TemporalRewards

variable {α : Type} {asValue : α → Value} {world : World} {outer inner : List Entry} {tick : Tick}
  {rules : List (String × Rule α)} {values : List (String × α)}

/-- Values as entries of a scope. -/
def entriesOf (asValue : α → Value) (values : List (String × α)) : List Entry :=
  values.map fun v => (v.1, asValue v.2)

/-- Values under the names of rules, each of them given by its rule at a tick over the
values before it, after `inner`, and over the entries of the table below. -/
structure Sequential (asValue : α → Value) (world : World) (outer : List Entry) (tick : Tick)
    (inner : List Entry) (rules : List (String × Rule α)) (values : List (String × α)) : Prop where
  names : values.map (·.1) = rules.map (·.1)
  each : ∀ (i : Nat) (rule : String × Rule α) (value : String × α),
    rules[i]? = some rule → values[i]? = some value →
    rule.2.evaluate ⟨world, outer, inner ++ entriesOf asValue (values.take i)⟩ tick = .ok value.2

namespace Sequential

theorem nil : Sequential asValue world outer tick inner ([] : List (String × Rule α)) [] := by
  refine ⟨rfl, ?_⟩
  intro i rule value found
  contradiction

/-- The first value is in the scope of the others. -/
theorem cons_iff {name other : String} {rule : Rule α} {value : α} :
    Sequential asValue world outer tick inner ((name, rule) :: rules) ((other, value) :: values) ↔
      other = name ∧ rule.evaluate ⟨world, outer, inner⟩ tick = .ok value ∧
        Sequential asValue world outer tick (inner ++ [(name, asValue value)]) rules values := by
  constructor
  · rintro ⟨names, each⟩
    obtain ⟨same, others⟩ := List.cons.inj names
    have first := each 0 (name, rule) (other, value) rfl rfl
    obtain rfl : other = name := same
    refine ⟨rfl, by simpa [entriesOf] using first, others, ?_⟩
    intro i next result foundRule foundValue
    simpa [entriesOf] using each (i + 1) next result foundRule foundValue
  · rintro ⟨rfl, first, names, each⟩
    refine ⟨congrArg (other :: ·) names, ?_⟩
    intro i next result foundRule foundValue
    cases i with
    | zero =>
      obtain rfl := Option.some.inj foundRule
      obtain rfl := Option.some.inj foundValue
      simpa [entriesOf] using first
    | succ i => simpa [entriesOf] using each i next result foundRule foundValue

theorem length_eq (sequential : Sequential asValue world outer tick inner rules values) :
    values.length = rules.length := by
  simpa using congrArg List.length sequential.names

end Sequential

namespace Table

theorem evaluateFrom_eq_ok_iff : evaluateFrom asValue world outer tick inner rules = .ok values ↔
    Sequential asValue world outer tick inner rules values := by
  induction rules generalizing inner values with
  | nil =>
    rw [evaluateFrom, Except.ok.injEq]
    constructor
    · rintro rfl
      exact .nil
    · intro sequential
      exact (List.length_eq_zero_iff.mp sequential.length_eq).symm
  | cons rule rest ih =>
    obtain ⟨name, rule⟩ := rule
    rw [evaluateFrom]
    cases values with
    | nil =>
      have short : ¬ Sequential asValue world outer tick inner ((name, rule) :: rest) [] := by
        intro sequential
        have := sequential.length_eq
        contradiction
      refine iff_of_false ?_ short
      split
      · simp
      · split <;> simp
    | cons first values =>
      obtain ⟨other, value⟩ := first
      rw [Sequential.cons_iff, ← ih]
      cases given : rule.evaluate ⟨world, outer, inner⟩ tick with
      | error cause => simp
      | ok result =>
        dsimp only
        cases later : evaluateFrom asValue world outer tick (inner ++ [(name, asValue result)])
          rest with
        | error e =>
          simp only [reduceCtorEq, Except.ok.injEq, false_iff]
          rintro ⟨rfl, rfl, same⟩
          rw [later] at same
          contradiction
        | ok results =>
          simp only [Except.ok.injEq, List.cons.injEq, Prod.mk.injEq]
          constructor
          · rintro ⟨⟨rfl, rfl⟩, rfl⟩
            exact ⟨rfl, rfl, later⟩
          · rintro ⟨rfl, rfl, same⟩
            rw [later] at same
            exact ⟨⟨rfl, rfl⟩, Except.ok.inj same⟩

theorem value_evaluate (t : Table α) (asValue : α → Value) (world : World) (outer : List Entry)
    (tick : Tick) : (t.evaluate asValue world outer tick).value =
      evaluateFrom asValue world outer tick [] t.rules := by
  rw [evaluate]
  split <;> simp_all [Logged.quiet]

theorem evaluate_eq_ok_iff {t : Table α} :
    (t.evaluate asValue world outer tick).value = .ok values ↔
      Sequential asValue world outer tick [] t.rules values := by
  rw [← evaluateFrom_eq_ok_iff, value_evaluate]

end Table

end TemporalRewards
