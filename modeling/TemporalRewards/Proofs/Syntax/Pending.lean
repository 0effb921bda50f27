import TemporalRewards.Proofs.Syntax.Derivations

/-! How many parentheses and prefix operators stand open after some tokens. They are kept
in a stack: a complete operand ends the prefix operators in front of it, and a closing
parenthesis completes what it encloses. A formula leaves the stack as it found it, but for
prefix operators that waited for it, and never takes it past the limit. -/
namespace TemporalRewards.Grammar

/-- What waits for something to come: a parenthesis for the one that closes it, and a prefix
operator for its operand. -/
inductive Opener
  | parenthesis
  | prefixOperator
deriving DecidableEq, Repr

/-- The stack without the prefix operators that get their operand now. -/
def served : List Opener → List Opener
  | .prefixOperator :: stack => served stack
  | stack => stack

/-- What stands open after one more token, the innermost first. -/
def pendingAfter (stack : List Opener) : Token → List Opener
  | .opening => .parenthesis :: stack
  | .closing => served stack.tail
  | .notWord | .nextWord | .eventuallyWord | .alwaysWord => .prefixOperator :: stack
  | .trueWord | .falseWord | .ident _ => served stack
  | .arrow | .orWord | .andWord | .untilWord => stack

/-- What stands open after some tokens. -/
def pendingFrom (stack : List Opener) (tokens : List Token) : List Opener :=
  tokens.foldl pendingAfter stack

/-- What stands open after tokens from the start of a formula. -/
def pending (tokens : List Token) : List Opener := pendingFrom [] tokens

/-- In `(not a U X` the negation has its operand, and the `X` has not. -/
example : pending [.opening, .notWord, .ident "a", .untilWord, .nextWord] =
    [.prefixOperator, .parenthesis] := rfl

variable {alphabet : Alphabet} {level tighter : Level} {depth : Nat} {stack : List Opener}
  {us vs tokens : List Token} {token : Token} {φ : Formula}

theorem length_served_le (stack : List Opener) : (served stack).length ≤ stack.length := by
  fun_induction served stack with
  | case1 stack ih => exact Nat.le_succ_of_le ih
  | case2 => exact Nat.le_refl _

theorem served_served (stack : List Opener) : served (served stack) = served stack := by
  fun_induction served stack with
  | case1 stack ih => exact ih
  | case2 stack other =>
    rw [served.eq_def]
    split
    · exact absurd rfl (other _)
    · rfl

theorem pendingFrom_append (stack : List Opener) (us vs : List Token) :
    pendingFrom stack (us ++ vs) = pendingFrom (pendingFrom stack us) vs :=
  List.foldl_append

theorem pendingFrom_cons (stack : List Opener) (token : Token) (us : List Token) :
    pendingFrom stack (token :: us) = pendingFrom (pendingAfter stack token) us := rfl

theorem pendingFrom_joined (stack : List Opener) (us vs : List Token)
    (stays : ∀ stack, pendingAfter stack token = stack) :
    pendingFrom stack (us ++ token :: vs) = pendingFrom (pendingFrom stack us) vs := by
  rw [pendingFrom_append, pendingFrom_cons, stays]

theorem Binary.pendingAfter_eq {operator : Formula → Formula → Formula}
    (binary : Binary level token operator tighter) (stack : List Opener) :
    pendingAfter stack token = stack := by
  cases binary <;> rfl

theorem Multiple.pendingAfter_eq {kind : Junction} (multiple : Multiple level token kind tighter)
    (stack : List Opener) : pendingAfter stack token = stack := by
  cases multiple <;> rfl

theorem PrefixOperator.pendingAfter_eq {operator : Formula → Formula}
    (found : PrefixOperator token operator) (stack : List Opener) :
    pendingAfter stack token = .prefixOperator :: stack := by
  cases found <;> rfl

/-- Tokens that serve the operators that wait for them, close what they open, and open no
more than the limit allows below `depth` levels. -/
structure Balanced (depth : Nat) (tokens : List Token) : Prop where
  settles : ∀ stack, pendingFrom stack tokens = served stack
  within : ∀ stack : List Opener, stack.length ≤ depth → ∀ us vs, tokens = us ++ vs →
    (pendingFrom stack us).length ≤ maxDepth

theorem Balanced.length_le (balanced : Balanced depth tokens) (small : stack.length ≤ depth) :
    stack.length ≤ maxDepth :=
  balanced.within stack small [] tokens rfl

theorem balanced_leaf (low : depth ≤ maxDepth)
    (serves : ∀ stack, pendingAfter stack token = served stack) : Balanced depth [token] where
  settles := serves
  within stack small us vs split := by
    have fits : stack.length ≤ maxDepth := Nat.le_trans small low
    rcases List.singleton_eq_append_iff.mp split with ⟨rfl, _⟩ | ⟨rfl, _⟩
    · exact fits
    · rw [pendingFrom_cons, serves]
      exact Nat.le_trans (length_served_le stack) fits

/-- Tokens between which stands one that opens and serves nothing. -/
theorem Balanced.joined (left : Balanced depth us) (right : Balanced depth vs)
    (stays : ∀ stack, pendingAfter stack token = stack) : Balanced depth (us ++ token :: vs) where
  settles stack := by
    rw [pendingFrom_joined stack us vs stays, left.settles, right.settles, served_served]
  within stack small xs ys split := by
    rcases List.append_eq_append_iff.mp split with ⟨ending, rfl, same⟩ | ⟨ending, rfl, _⟩
    · rcases List.cons_eq_append_iff.mp same with ⟨rfl, _⟩ | ⟨later, rfl, rfl⟩
      · rw [List.append_nil]
        exact left.within stack small us [] (List.append_nil _).symm
      · rw [pendingFrom_joined stack us later stays, left.settles]
        exact right.within _ (Nat.le_trans (length_served_le stack) small) later ys rfl
    · exact left.within stack small xs ending rfl

theorem Balanced.intercalate (stays : ∀ stack, pendingAfter stack token = stack)
    {parts : List (List Token)} (some : parts ≠ []) (each : ∀ part ∈ parts, Balanced depth part) :
    Balanced depth ([token].intercalate parts) := by
  induction parts with
  | nil => contradiction
  | cons part parts ih =>
    obtain ⟨first, each⟩ := List.forall_mem_cons.mp each
    cases parts with
    | nil => rwa [List.intercalate_singleton]
    | cons second parts =>
      rw [List.intercalate_cons_cons, List.append_assoc, List.singleton_append]
      exact first.joined (ih (by simp) each) stays

theorem Balanced.applied (inner : Balanced (depth + 1) us)
    (opens : ∀ stack, pendingAfter stack token = .prefixOperator :: stack) :
    Balanced depth (token :: us) where
  settles stack := by
    rw [pendingFrom_cons, opens, inner.settles, served]
  within stack small xs ys split := by
    have deeper : (Opener.prefixOperator :: stack).length ≤ depth + 1 := Nat.succ_le_succ small
    rcases List.cons_eq_append_iff.mp split with ⟨rfl, _⟩ | ⟨later, rfl, rfl⟩
    · exact Nat.le_of_succ_le (inner.length_le deeper)
    · rw [pendingFrom_cons, opens]
      exact inner.within _ deeper later ys rfl

theorem Balanced.enclosed (inner : Balanced (depth + 1) us) :
    Balanced depth (.opening :: (us ++ [.closing])) := by
  have closes (stack : List Opener) : pendingFrom (.parenthesis :: stack) (us ++ [.closing]) =
      served stack := by
    rw [pendingFrom_append, inner.settles]
    rfl
  constructor
  · exact closes
  · intro stack small xs ys split
    have deeper : (Opener.parenthesis :: stack).length ≤ depth + 1 := Nat.succ_le_succ small
    have fits : stack.length ≤ maxDepth := Nat.le_of_succ_le (inner.length_le deeper)
    rcases List.cons_eq_append_iff.mp split with ⟨rfl, _⟩ | ⟨later, rfl, same⟩
    · exact fits
    · rw [pendingFrom_cons, pendingAfter]
      rcases List.append_eq_append_iff.mp same with ⟨ending, rfl, last⟩ | ⟨ending, rfl, _⟩
      · rcases List.singleton_eq_append_iff.mp last with ⟨rfl, _⟩ | ⟨rfl, _⟩
        · rw [List.append_nil]
          exact inner.within _ deeper us [] (List.append_nil _).symm
        · rw [closes]
          exact Nat.le_trans (length_served_le stack) fits
      · exact inner.within _ deeper later ending rfl

/-- A formula leaves open what was open, and keeps to the limit. -/
theorem Derives.balanced (derives : Derives alphabet level depth tokens φ) :
    Balanced depth tokens := by
  induction derives with
  | right found _ _ left right => exact left.joined right found.pendingAfter_eq
  | last _ _ ih | single _ _ ih => exact ih
  | @several _ _ _ _ _ parts found several _ ih =>
    refine .intercalate found.pendingAfter_eq ?_ (List.forall_mem_map.mpr ih)
    rintro none
    rw [List.map_eq_nil_iff] at none
    rw [none] at several
    contradiction
  | applied found _ ih => exact ih.applied found.pendingAfter_eq
  | enclosed _ ih => exact ih.enclosed
  | top low | bot low | name low _ => exact balanced_leaf low fun _ => rfl

end TemporalRewards.Grammar
