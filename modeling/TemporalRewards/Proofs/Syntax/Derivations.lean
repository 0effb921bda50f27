import Mathlib.Data.List.Basic
import TemporalRewards.Proofs.Formula.Structure
import TemporalRewards.Proofs.Syntax.Grammar

/-! The grammar of formula text as derivations over tokens. It says nothing of how a
formula is found: it fixes which token lists are formulas, of which level, and how deep
parentheses and prefix operators may nest. -/
namespace TemporalRewards

/-- The name stands at a place and at no earlier one. -/
def Alphabet.FirstAt (a : Alphabet) (name : String) (i : Nat) : Prop :=
  a.name? i = some name ∧ ∀ j < i, a.name? j ≠ some name

theorem Alphabet.index?_eq_some_iff {a : Alphabet} {name : String} {i : Nat} :
    a.index? name = some i ↔ a.FirstAt name i := by
  rw [index?, List.findIdx?_eq_some_iff_getElem]
  constructor
  · rintro ⟨inside, found, before⟩
    rw [beq_iff_eq] at found
    refine ⟨by rw [name?, List.getElem?_eq_getElem inside, found], ?_⟩
    intro j less same
    rw [name?, List.getElem?_eq_getElem (Nat.lt_trans less inside), Option.some.injEq] at same
    exact before j less (beq_iff_eq.mpr same)
  · rintro ⟨found, before⟩
    obtain ⟨inside, same⟩ := List.getElem?_eq_some_iff.mp found
    refine ⟨inside, beq_iff_eq.mpr same, ?_⟩
    intro j less again
    apply before j less
    rw [name?, List.getElem?_eq_getElem (Nat.lt_trans less inside), beq_iff_eq.mp again]

namespace Grammar

/-- From the loosest infix operator to the tightest, and what stands between them. -/
inductive Level
  | implication
  | disjunction
  | conjunction
  | strongUntil
  | operand

/-- The infix operators that associate to the right: the level of the operator, its
token, and the level of what stands to its left. -/
inductive Binary : Level → Token → (Formula → Formula → Formula) → Level → Prop
  | implies : Binary .implication .arrow .implies .disjunction
  | strongUntil : Binary .strongUntil .untilWord .strongUntil .operand

/-- The infix operators that take any number of operands. -/
inductive Multiple : Level → Token → Junction → Level → Prop
  | any : Multiple .disjunction .orWord .any .conjunction
  | all : Multiple .conjunction .andWord .all .strongUntil

inductive PrefixOperator : Token → (Formula → Formula) → Prop
  | not : PrefixOperator .notWord .neg
  | next : PrefixOperator .nextWord .next
  | eventually : PrefixOperator .eventuallyWord .eventually
  | always : PrefixOperator .alwaysWord .always

/-- The token list is a formula at a level. `depth` counts the parentheses and the
prefix operators around it. -/
inductive Derives (alphabet : Alphabet) : Level → Nat → List Token → Formula → Prop where
  | right {level tighter token operator depth us vs φ ψ} : Binary level token operator tighter →
      Derives alphabet tighter depth us φ → Derives alphabet level depth vs ψ →
      Derives alphabet level depth (us ++ token :: vs) (operator φ ψ)
  | last {level tighter token operator depth us φ} : Binary level token operator tighter →
      Derives alphabet tighter depth us φ → Derives alphabet level depth us φ
  | several {level tighter token kind depth} {parts : List (List Token × Formula)} :
      Multiple level token kind tighter → 2 ≤ parts.length →
      (∀ part ∈ parts, Derives alphabet tighter depth part.1 part.2) →
      Derives alphabet level depth ([token].intercalate (parts.map (·.1)))
        (.junction kind (parts.map (·.2)))
  | single {level tighter token kind depth us φ} : Multiple level token kind tighter →
      Derives alphabet tighter depth us φ → Derives alphabet level depth us φ
  | applied {token operator depth us φ} : PrefixOperator token operator →
      Derives alphabet .operand (depth + 1) us φ →
      Derives alphabet .operand depth (token :: us) (operator φ)
  | enclosed {depth us φ} : Derives alphabet .implication (depth + 1) us φ →
      Derives alphabet .operand depth (.opening :: (us ++ [.closing])) φ
  | top {depth} : depth ≤ maxDepth → Derives alphabet .operand depth [.trueWord] .top
  | bot {depth} : depth ≤ maxDepth → Derives alphabet .operand depth [.falseWord] .bot
  | name {depth name i} : depth ≤ maxDepth → alphabet.FirstAt name i →
      Derives alphabet .operand depth [.ident name] (.atom i)

variable {alphabet : Alphabet} {level tighter : Level} {depth : Nat} {tokens : List Token}
  {φ : Formula}

/-- No operand stands deeper than the limit. -/
theorem Derives.depth_le (derives : Derives alphabet level depth tokens φ) : depth ≤ maxDepth := by
  induction derives with
  | right _ _ _ ih _ => exact ih
  | last _ _ ih => exact ih
  | @several _ _ _ _ _ parts _ several _ ih =>
    have some : 0 < parts.length := Nat.lt_of_lt_of_le Nat.zero_lt_two several
    obtain ⟨part, member⟩ := List.exists_mem_of_length_pos some
    exact ih part member
  | single _ _ ih => exact ih
  | applied _ _ ih => exact Nat.le_of_succ_le ih
  | enclosed _ ih => exact Nat.le_of_succ_le ih
  | top small => exact small
  | bot small => exact small
  | name small _ => exact small

/-- An operand stands at every level. -/
theorem Derives.atLevel (derives : Derives alphabet .operand depth tokens φ) :
    Derives alphabet level depth tokens φ := by
  have untils := derives.last .strongUntil
  have conjunctions := untils.single .all
  have disjunctions := conjunctions.single .any
  cases level with
  | implication => exact disjunctions.last .implies
  | disjunction => exact disjunctions
  | conjunction => exact conjunctions
  | strongUntil => exact untils
  | operand => exact derives

/-- What stands at any level is an implication. -/
theorem Derives.loosen (derives : Derives alphabet level depth tokens φ) :
    Derives alphabet .implication depth tokens φ := by
  cases level with
  | implication => exact derives
  | disjunction => exact derives.last .implies
  | conjunction => exact (derives.single .any).last .implies
  | strongUntil => exact ((derives.single .all).single .any).last .implies
  | operand => exact derives.atLevel

section Levels

variable {separator : Token} {operator : Formula → Formula → Formula} {kind : Junction}

/-- The tokens of operands, each with the separator in front of it. -/
def tokensAfter (separator : Token) (parts : List (List Token × Formula)) : List Token :=
  parts.flatMap (separator :: ·.1)

/-- One or more operands between separators. -/
def Separated (separator : Token) (build : Formula → List Formula → Formula)
    (language : List Token → Formula → Prop) (tokens : List Token) (φ : Formula) : Prop :=
  ∃ first : List Token × Formula, ∃ others : List (List Token × Formula),
    (∀ part ∈ first :: others, language part.1 part.2) ∧
    tokens = first.1 ++ tokensAfter separator others ∧ φ = build first.2 (others.map (·.2))

theorem tokensAfter_cons (separator : Token) (part : List Token × Formula)
    (parts : List (List Token × Formula)) :
    tokensAfter separator (part :: parts) = separator :: part.1 ++ tokensAfter separator parts := rfl

theorem intercalate_eq (separator : Token) (first : List Token × Formula)
    (others : List (List Token × Formula)) :
    [separator].intercalate ((first :: others).map (·.1)) =
      first.1 ++ tokensAfter separator others := by
  induction others generalizing first with
  | nil => simp [List.intercalate, tokensAfter]
  | cons second others ih =>
    rw [tokensAfter_cons, List.cons_append, ← ih second]
    simp [List.intercalate]

/-- An operator that associates to the right: its operands are those between separators. -/
theorem separated_iff_of_binary (binary : Binary level separator operator tighter) :
    Separated separator (toTheRight operator) (Derives alphabet tighter depth) tokens φ ↔
      Derives alphabet level depth tokens φ := by
  constructor
  · rintro ⟨first, others, each, rfl, rfl⟩
    induction others generalizing first with
    | nil =>
      rw [tokensAfter, List.flatMap_nil, List.append_nil]
      exact .last binary (each first List.mem_cons_self)
    | cons second others ih =>
      obtain ⟨derives, each⟩ := List.forall_mem_cons.mp each
      exact .right binary derives (ih second each)
  · intro derives
    induction derives with
    | @right _ _ _ _ _ us _ φ _ found left _ _ ih =>
      obtain ⟨first, others, each, rfl, rfl⟩ := ih binary
      cases binary <;> cases found <;>
        exact ⟨(us, φ), first :: others, List.forall_mem_cons.mpr ⟨left, each⟩, rfl, rfl⟩
    | @last _ _ _ _ _ us φ found derives _ =>
      cases binary <;> cases found <;>
        exact ⟨(us, φ), [], by simpa using derives, by simp [tokensAfter], rfl⟩
    | several found | single found => cases binary <;> cases found
    | applied | enclosed | top | bot | name => cases binary

theorem separated_iff_of_multiple (multiple : Multiple level separator kind tighter) :
    Separated separator (together kind) (Derives alphabet tighter depth) tokens φ ↔
      Derives alphabet level depth tokens φ := by
  constructor
  · rintro ⟨first, others, each, rfl, rfl⟩
    cases others with
    | nil =>
      rw [tokensAfter, List.flatMap_nil, List.append_nil]
      exact .single multiple (each first List.mem_cons_self)
    | cons second others =>
      rw [← intercalate_eq]
      exact .several multiple (by simp) each
  · intro derives
    cases derives with
    | right found | last found => cases multiple <;> cases found
    | @several _ _ _ _ _ parts found several each =>
      match parts, several with
      | first :: second :: others, _ =>
        cases multiple <;> cases found <;>
          exact ⟨first, second :: others, each, intercalate_eq _ _ _, rfl⟩
    | single found derives =>
      cases multiple <;> cases found <;>
        exact ⟨(tokens, φ), [], by simpa using derives, by simp [tokensAfter], rfl⟩
    | applied | enclosed | top | bot | name => cases multiple

end Levels

end Grammar

end TemporalRewards
