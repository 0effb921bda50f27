import TemporalRewards.Scope

/-! Rules and tables of rules. A table evaluates its rules from front to back,
and each rule sees what the rules before it gave. -/
namespace TemporalRewards

/-- How a value comes about at each tick. -/
inductive Rule (α : Type)
  | constant (value : α)
  | computed (body : Scope → Tick → Except EvalError α)

namespace Rule

variable {α : Type}

def evaluate (rule : Rule α) (scope : Scope) (tick : Tick) : Except EvalError α :=
  match rule with
  | constant value => .ok value
  | computed body => body scope tick

/-- The structural dump of a rule, which does not look into a computed one. -/
def dump (value : α → String) : Rule α → String
  | constant v => "Constant(" ++ value v ++ ")"
  | computed _ => "Computed(..)"

end Rule

/-- The first item that is also later in the list, at the place where it comes again. -/
def firstRepeated (seen : List String) : List String → Option String
  | [] => none
  | name :: rest => if name ∈ seen then some name else firstRepeated (name :: seen) rest

theorem nodup_of_firstRepeated {seen names : List String} (h : firstRepeated seen names = none) :
    names.Nodup ∧ ∀ name ∈ names, name ∉ seen := by
  induction names generalizing seen with
  | nil => simp
  | cons name rest ih =>
    rw [firstRepeated] at h
    split at h
    · cases h
    · obtain ⟨nodup, apart⟩ := ih h
      grind

/-- Rules with distinct names, in the order of their evaluation. -/
structure Table (α : Type) where
  kind : TableKind
  rules : List (String × Rule α)
  nodup : (rules.map (·.1)).Nodup

namespace Table

variable {α : Type}

def build (kind : TableKind) (rules : List (String × Rule α)) : Except ConfigError (Table α) :=
  match h : firstRepeated [] (rules.map (·.1)) with
  | some name => .error (.duplicateName kind name)
  | none => .ok ⟨kind, rules, (nodup_of_firstRepeated h).1⟩

def names (t : Table α) : List String := t.rules.map (·.1)

def size (t : Table α) : Nat := t.rules.length

/-- Refuses the first of the taken names that the table uses as well. -/
def rejectNames (t : Table α) (taken : List String) : Except ConfigError Unit :=
  match taken.find? (· ∈ t.names) with
  | some name => .error (.duplicateName t.kind name)
  | none => .ok ()

/-- Evaluates rules in order, with `inner` the entries so far. -/
def evaluateFrom (asValue : α → Value) (world : World) (outer : List Entry) (tick : Tick)
    (inner : List Entry) : List (String × Rule α) → Except EvalError (List (String × α))
  | [] => .ok []
  | (name, rule) :: rest =>
    match rule.evaluate ⟨world, outer, inner⟩ tick with
    | .error cause => .error (.rule name tick cause)
    | .ok value =>
      match evaluateFrom asValue world outer tick (inner ++ [(name, asValue value)]) rest with
      | .error e => .error e
      | .ok later => .ok ((name, value) :: later)

/-- The value of every rule, over the entries of the table below. -/
def evaluate (t : Table α) (asValue : α → Value) (world : World) (outer : List Entry) (tick : Tick) :
    Logged (Except EvalError (List (String × α))) :=
  match evaluateFrom asValue world outer tick [] t.rules with
  | .error e => .quiet (.error e)
  | .ok values => ⟨.ok values, [.evaluated values.length t.kind tick]⟩

end Table

end TemporalRewards
