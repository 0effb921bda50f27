import Mathlib.Logic.Function.Iterate
import TemporalRewards.Formula.Text
import TemporalRewards.Proofs.Formula.Normal
import TemporalRewards.Proofs.Syntax.Nesting
import TemporalRewards.Proofs.Syntax.Spelling

/-! Writing a formula and reading it again. What is written is read as the same formula
as long as no leaf stands deeper than the reader allows; a deeper one is refused for
its depth and for nothing else. -/
namespace TemporalRewards

/-- The token between the operands of a junction. -/
def Junction.token : Junction → Token
  | all => .andWord
  | any => .orWord

/-- What is written for a proposition. -/
def Alphabet.shown (a : Alphabet) (i : Nat) : String := (a.name? i).getD (Formula.numbered i)

namespace Formula

/-- Every junction has at least two operands. -/
inductive Plural : Formula → Prop where
  | bot : Plural bot
  | top : Plural top
  | atom (i) : Plural (atom i)
  | neg {φ} : Plural φ → Plural (neg φ)
  | junction {kind operands} : 2 ≤ operands.length → (∀ φ ∈ operands, Plural φ) →
      Plural (junction kind operands)
  | implies {φ ψ} : Plural φ → Plural ψ → Plural (implies φ ψ)
  | next {φ} : Plural φ → Plural (next φ)
  | eventually {φ} : Plural φ → Plural (eventually φ)
  | always {φ} : Plural φ → Plural (always φ)
  | strongUntil {φ ψ} : Plural φ → Plural ψ → Plural (strongUntil φ ψ)

/-- Every proposition has a name that can stand in a text and is found again. -/
def NamedIn (alphabet : Alphabet) (φ : Formula) : Prop :=
  ∀ i ∈ φ.atoms, ∃ name, alphabet.FirstAt name i ∧ Token.IsIdentifier name

/-- How many ancestors each leaf has, from left to right. -/
def leafDepths : Formula → List Nat
  | bot | top | atom _ => [0]
  | neg φ | next φ | eventually φ | always φ => φ.leafDepths.map (· + 1)
  | junction _ operands => (operands.flatMap fun φ => leafDepths φ).map (· + 1)
  | implies φ ψ | strongUntil φ ψ => (φ.leafDepths ++ ψ.leafDepths).map (· + 1)

/-- Below `depth` further operators, no leaf stands deeper than the reader allows. -/
def Shallow (depth : Nat) (φ : Formula) : Prop := ∀ n ∈ φ.leafDepths, depth + n ≤ Grammar.maxDepth

/-- The tokens that a formula is written with. -/
def tokens (name : Nat → String) : Formula → List Token
  | bot => [.falseWord]
  | top => [.trueWord]
  | atom i => [.ident (name i)]
  | neg φ => .notWord :: tokens name φ
  | next φ => .nextWord :: tokens name φ
  | eventually φ => .eventuallyWord :: tokens name φ
  | always φ => .alwaysWord :: tokens name φ
  | junction kind operands =>
    .opening :: ([kind.token].intercalate (operands.map fun φ => tokens name φ) ++ [.closing])
  | implies φ ψ => .opening :: (tokens name φ ++ .arrow :: tokens name ψ ++ [.closing])
  | strongUntil φ ψ => .opening :: (tokens name φ ++ .untilWord :: tokens name ψ ++ [.closing])

theorem Normal.plural {φ : Formula} (normal : Normal φ) : φ.Plural := by
  induction normal with
  | bot => exact .bot
  | top => exact .top
  | atom i => exact .atom i
  | neg _ _ ih => exact .neg ih
  | junction _ _ several ih => exact .junction several ih
  | implies _ _ _ ihφ ihψ => exact .implies ihφ ihψ
  | next _ _ ih => exact .next ih
  | eventually _ _ ih => exact .eventually ih
  | always _ _ ih => exact .always ih
  | strongUntil _ _ _ ihφ ihψ => exact .strongUntil ihφ ihψ

end Formula

open Formula Grammar Token

variable {alphabet : Alphabet} {φ ψ : Formula} {kind : Junction} {operands : List Formula}
  {level : Level} {depth room : Nat} {us : List Token}

/-- Whatever can be derived has no junction of fewer than two operands. -/
theorem Grammar.Derives.plural (derives : Derives alphabet level depth us φ) : φ.Plural := by
  induction derives with
  | right found _ _ left right =>
    cases found with
    | implies => exact .implies left right
    | strongUntil => exact .strongUntil left right
  | last _ _ ih => exact ih
  | several _ several _ ih => exact .junction (by simpa using several) (List.forall_mem_map.mpr ih)
  | single _ _ ih => exact ih
  | applied found _ ih =>
    cases found with
    | not => exact .neg ih
    | next => exact .next ih
    | eventually => exact .eventually ih
    | always => exact .always ih
  | enclosed _ ih => exact ih
  | top => exact .top
  | bot => exact .bot
  | name => exact .atom _

section Tokens

variable {name : Nat → String} {rest : List Char}

/-- Operands with their tokens. -/
def Formula.spelled (name : Nat → String) (operands : List Formula) : List (List Token × Formula) :=
  operands.map fun φ => (φ.tokens name, φ)

theorem Formula.forall_mem_spelled {P : List Token × Formula → Prop} :
    (∀ part ∈ spelled name operands, P part) ↔ ∀ φ ∈ operands, P (φ.tokens name, φ) :=
  List.forall_mem_map

theorem Formula.tokens_junction : (junction kind operands).tokens name =
    .opening :: ([kind.token].intercalate ((spelled name operands).map (·.1)) ++ [.closing]) := by
  rw [tokens, spelled, List.map_map]
  rfl

theorem intercalate_pair (separator : Token) :
    [separator].intercalate ((spelled name [φ, ψ]).map (·.1)) =
      φ.tokens name ++ separator :: ψ.tokens name := by
  simp [spelled, List.intercalate]

theorem endsWord_writeRest (ends : EndsWord rest) : EndsWord (writeRest name kind operands rest) := by
  cases operands with
  | nil => exact ends
  | cons φ operands => exact endsWord_cons (by decide)

theorem spells_writeRest (ends : EndsWord rest)
    (each : ∀ φ ∈ operands, ∀ rest, EndsWord rest → Spells (φ.write name rest) (φ.tokens name) rest) :
    Spells (writeRest name kind operands rest) (tokensAfter kind.token (spelled name operands))
      rest := by
  induction operands with
  | nil => exact .done
  | cons φ operands ih =>
    obtain ⟨first, each⟩ := List.forall_mem_cons.mp each
    have operand := (first _ (endsWord_writeRest ends)).append (ih each)
    have isWord : IsWord kind.word := isWord_of_reserved (by cases kind <;> decide)
    have word := spells_wordBlank isWord operand
    cases kind with
    | all => exact .blank (by decide) word
    | any => exact .blank (by decide) word

/-- Parentheses around two operands with a token between them. -/
theorem spells_pair {cs middle rest : List Char} {us vs : List Token} {token : Token}
    (left : Spells cs us middle) (right : Spells middle (token :: vs) (')' :: rest)) :
    Spells ('(' :: cs) (.opening :: (us ++ token :: vs ++ [.closing])) rest :=
  .opening ((left.append right).append (.closing .done))

/-- What is written for a formula spells its tokens. -/
theorem spells_write (named : ∀ i ∈ φ.atoms, IsIdentifier (name i)) (ends : EndsWord rest) :
    Spells (φ.write name rest) (φ.tokens name) rest := by
  -- Inside parentheses a formula ends at a blank or at the closing one.
  have blank {cs : List Char} : EndsWord (' ' :: cs) := endsWord_cons (by decide)
  have closing {cs : List Char} : EndsWord (')' :: cs) := endsWord_cons (by decide)
  induction φ generalizing rest with
  | bot | top =>
    rw [tokens]
    exact spells_word (isWord_of_reserved (by decide)) ends
  | atom i =>
    obtain ⟨isWord, free⟩ := named i (by simp [atoms])
    rw [tokens, ← ofWord_of_not_reserved free]
    exact spells_word isWord ends
  | neg φ ih =>
    have word : IsWord "not" := isWord_of_reserved (by decide)
    rw [tokens]
    exact spells_wordBlank word (ih named ends)
  | next φ ih =>
    have word : IsWord "X" := isWord_of_reserved (by decide)
    rw [tokens]
    exact spells_wordBlank word (ih named ends)
  | eventually φ ih =>
    have word : IsWord "F" := isWord_of_reserved (by decide)
    rw [tokens]
    exact spells_wordBlank word (ih named ends)
  | always φ ih =>
    have word : IsWord "G" := isWord_of_reserved (by decide)
    rw [tokens]
    exact spells_wordBlank word (ih named ends)
  | junction kind operands ih =>
    rw [atoms, atomsAll_eq_flatMap, List.forall_mem_flatMap] at named
    have each : ∀ φ ∈ operands, ∀ rest, EndsWord rest →
        Spells (φ.write name rest) (φ.tokens name) rest :=
      fun φ member rest ends => ih φ member (named φ member) ends
    rw [tokens_junction]
    refine .opening (Spells.append ?_ (.closing .done))
    cases operands with
    | nil => exact .done
    | cons φ operands =>
      obtain ⟨first, each⟩ := List.forall_mem_cons.mp each
      rw [spelled, List.map_cons, intercalate_eq]
      exact (first _ (endsWord_writeRest closing)).append (spells_writeRest closing each)
  | implies φ ψ ihφ ihψ =>
    rw [atoms, List.forall_mem_append] at named
    have right : Spells (" => ".toList ++ ψ.write name (')' :: rest)) (.arrow :: ψ.tokens name)
        (')' :: rest) := .blank (by decide) (.arrow (.blank (by decide) (ihψ named.2 closing)))
    rw [tokens]
    exact spells_pair (ihφ named.1 blank) right
  | strongUntil φ ψ ihφ ihψ =>
    rw [atoms, List.forall_mem_append] at named
    have word : IsWord "U" := isWord_of_reserved (by decide)
    have right : Spells (" U ".toList ++ ψ.write name (')' :: rest)) (.untilWord :: ψ.tokens name)
        (')' :: rest) := .blank (by decide) (spells_wordBlank word (ihψ named.2 closing))
    rw [tokens]
    exact spells_pair (ihφ named.1 blank) right

end Tokens

section Depths

theorem shallow_leaf : (∀ n ∈ [0], depth + n ≤ maxDepth) ↔ depth ≤ maxDepth := by
  simp

theorem shallow_map_succ {depths : List Nat} : (∀ n ∈ depths.map (· + 1), depth + n ≤ maxDepth) ↔
    ∀ n ∈ depths, depth + 1 + n ≤ maxDepth := by
  simp only [List.forall_mem_map, Nat.add_assoc, Nat.add_comm 1]

theorem shallow_flatMap :
    (∀ n ∈ (operands.flatMap fun φ => φ.leafDepths).map (· + 1), depth + n ≤ maxDepth) ↔
      ∀ φ ∈ operands, φ.Shallow (depth + 1) := by
  rw [shallow_map_succ, List.forall_mem_flatMap]
  rfl

theorem shallow_append :
    (∀ n ∈ (φ.leafDepths ++ ψ.leafDepths).map (· + 1), depth + n ≤ maxDepth) ↔
      φ.Shallow (depth + 1) ∧ ψ.Shallow (depth + 1) := by
  rw [shallow_map_succ, List.forall_mem_append]
  rfl

theorem namedIn_junction : (junction kind operands).NamedIn alphabet ↔
    ∀ φ ∈ operands, φ.NamedIn alphabet := by
  rw [NamedIn, atoms, atomsAll_eq_flatMap, List.forall_mem_flatMap]
  rfl

end Depths

theorem Alphabet.shown_eq {name : String} {i : Nat} (first : alphabet.FirstAt name i) :
    alphabet.shown i = name := by
  rw [shown, first.1, Option.getD_some]

/-- A formula that is not too deep is derived from its tokens. -/
theorem derives_tokens (plural : φ.Plural) (named : φ.NamedIn alphabet)
    (shallow : φ.Shallow depth) :
    Derives alphabet .operand depth (φ.tokens alphabet.shown) φ := by
  induction plural generalizing depth with
  | bot =>
    rw [Shallow, leafDepths, shallow_leaf] at shallow
    rw [tokens]
    exact .bot shallow
  | top =>
    rw [Shallow, leafDepths, shallow_leaf] at shallow
    rw [tokens]
    exact .top shallow
  | atom i =>
    rw [Shallow, leafDepths, shallow_leaf] at shallow
    obtain ⟨name, first, _⟩ := named i (by simp [atoms])
    rw [tokens, Alphabet.shown_eq first]
    exact .name shallow first
  | neg _ ih | next _ ih | eventually _ ih | always _ ih =>
    rw [Shallow, leafDepths, shallow_map_succ] at shallow
    rw [tokens]
    exact .applied (by constructor) (ih named shallow)
  | @junction kind operands several _ ih =>
    rw [Shallow, leafDepths, shallow_flatMap] at shallow
    rw [namedIn_junction] at named
    have each : ∀ part ∈ spelled alphabet.shown operands,
        Derives alphabet .operand (depth + 1) part.1 part.2 :=
      forall_mem_spelled.mpr fun φ member => ih φ member (named φ member) (shallow φ member)
    have same : (spelled alphabet.shown operands).map (·.2) = operands := by
      rw [spelled, List.map_map]
      exact List.map_id _
    have plural : 2 ≤ (spelled alphabet.shown operands).length := by
      rwa [spelled, List.length_map]
    rw [tokens_junction]
    apply Derives.enclosed
    cases kind with
    | all =>
      have conjunction := Derives.several .all plural fun part member => (each part member).atLevel
      rw [same] at conjunction
      exact conjunction.loosen
    | any =>
      have disjunction := Derives.several .any plural fun part member => (each part member).atLevel
      rw [same] at disjunction
      exact disjunction.loosen
  | implies _ _ ihφ ihψ =>
    rw [Shallow, leafDepths, shallow_append] at shallow
    rw [NamedIn, atoms, List.forall_mem_append] at named
    have left := ihφ named.1 shallow.1
    have right := ihψ named.2 shallow.2
    rw [tokens]
    exact .enclosed (.right .implies left.atLevel right.atLevel)
  | strongUntil _ _ ihφ ihψ =>
    rw [Shallow, leafDepths, shallow_append] at shallow
    rw [NamedIn, atoms, List.forall_mem_append] at named
    have left := ihφ named.1 shallow.1
    have right := ihψ named.2 shallow.2
    rw [tokens]
    exact .enclosed (Derives.right .strongUntil left right.atLevel).loosen

/-- In parentheses, operands of which one is too deep. -/
theorem tooDeep_spelled (levels : room + depth = maxDepth + 1)
    (plural : ∀ φ ∈ operands, φ.Plural) (named : ∀ φ ∈ operands, φ.NamedIn alphabet)
    (each : ∀ φ ∈ operands, ∀ inner, inner + (depth + 1) = maxDepth + 1 →
      ¬ φ.Shallow (depth + 1) → TooDeep (operand alphabet inner) (φ.tokens alphabet.shown))
    (deep : ¬ ∀ φ ∈ operands, φ.Shallow (depth + 1)) {separator : Token}
    (between : separator ∈ Level.implication.separators) :
    TooDeep (operand alphabet room) (.opening ::
      ([separator].intercalate ((spelled alphabet.shown operands).map (·.1)) ++ [.closing])) := by
  apply TooDeep.enclosed
  rintro inner rfl
  have levels : inner + (depth + 1) = maxDepth + 1 := by omega
  apply tooDeep_operands levels _ _ between
  · refine forall_mem_spelled.mpr ?_
    intro φ member
    by_cases shallow : φ.Shallow (depth + 1)
    · exact .inl (derives_tokens (plural φ member) (named φ member) shallow)
    · exact .inr (each φ member inner levels shallow)
  · push Not at deep
    obtain ⟨φ, member, deep⟩ := deep
    exact ⟨_, List.mem_map_of_mem member, each φ member inner levels deep⟩

theorem tooDeep_pair (levels : room + depth = maxDepth + 1) (plural : φ.Plural ∧ ψ.Plural)
    (named : φ.NamedIn alphabet ∧ ψ.NamedIn alphabet)
    (left : ∀ inner, inner + (depth + 1) = maxDepth + 1 → ¬ φ.Shallow (depth + 1) →
      TooDeep (operand alphabet inner) (φ.tokens alphabet.shown))
    (right : ∀ inner, inner + (depth + 1) = maxDepth + 1 → ¬ ψ.Shallow (depth + 1) →
      TooDeep (operand alphabet inner) (ψ.tokens alphabet.shown))
    (deep : ¬ (φ.Shallow (depth + 1) ∧ ψ.Shallow (depth + 1))) {separator : Token}
    (between : separator ∈ Level.implication.separators) :
    TooDeep (operand alphabet room) (.opening ::
      (φ.tokens alphabet.shown ++ separator :: ψ.tokens alphabet.shown ++ [.closing])) := by
  rw [← forall_mem_pair] at plural named deep
  rw [← intercalate_pair]
  exact tooDeep_spelled levels plural named (forall_mem_pair.mpr ⟨left, right⟩) deep between

/-- A formula with a leaf that is too deep is given up. -/
theorem tooDeep_tokens (plural : φ.Plural) (named : φ.NamedIn alphabet)
    (levels : room + depth = maxDepth + 1) (deep : ¬ φ.Shallow depth) :
    TooDeep (operand alphabet room) (φ.tokens alphabet.shown) := by
  -- Every constructor takes one of the levels that are left, which keeps their sum with
  -- the depth.
  induction plural generalizing depth room with
  | bot | top | atom =>
    rw [Shallow, leafDepths, shallow_leaf] at deep
    obtain rfl : room = 0 := by omega
    exact tooDeep_zero
  | neg _ ih | next _ ih | eventually _ ih | always _ ih =>
    rw [Shallow, leafDepths, shallow_map_succ] at deep
    rw [tokens]
    exact .applied (by constructor) fun inner same => ih named (by omega) deep
  | @junction kind operands _ plural ih =>
    rw [Shallow, leafDepths, shallow_flatMap] at deep
    rw [namedIn_junction] at named
    rw [tokens_junction]
    refine tooDeep_spelled levels plural named ?_ deep (by cases kind <;> decide)
    intro φ member inner levels
    exact ih φ member (named φ member) levels
  | implies pluralφ pluralψ ihφ ihψ | strongUntil pluralφ pluralψ ihφ ihψ =>
    rw [Shallow, leafDepths, shallow_append] at deep
    rw [NamedIn, atoms, List.forall_mem_append] at named
    rw [tokens]
    refine tooDeep_pair levels ⟨pluralφ, pluralψ⟩ named ?_ ?_ deep (by decide)
    · exact fun inner => ihφ named.1
    · exact fun inner => ihψ named.2

section Texts

/-- A text with names spells the tokens of the formula. -/
theorem tokenize_namedText (named : φ.NamedIn alphabet) :
    ∃ lexemes position, lexemes.map (·.token) = φ.tokens alphabet.shown ∧
      Scan.ofText (φ.namedText alphabet) = ⟨lexemes, .finished position⟩ := by
  have identifiers : ∀ i ∈ φ.atoms, IsIdentifier (alphabet.shown i) := by
    intro i member
    obtain ⟨name, first, isIdentifier⟩ := named i member
    rwa [Alphabet.shown_eq first]
  apply Spells.ofText
  rw [namedText, String.toList_ofList]
  exact spells_write identifiers endsWord_nil

theorem parseFormula_namedText (plural : φ.Plural) (named : φ.NamedIn alphabet)
    (shallow : φ.Shallow 0) : parseFormula (φ.namedText alphabet) alphabet = .ok φ := by
  obtain ⟨lexemes, position, same, scanned⟩ := tokenize_namedText named
  apply parseFormula_eq_ok_iff.mpr
  refine ⟨lexemes, tokenize_eq_ok_iff.mpr ⟨position, scanned⟩, ?_⟩
  rw [same]
  exact (derives_tokens plural named shallow).atLevel

theorem parseFormula_tooDeep (plural : φ.Plural) (named : φ.NamedIn alphabet)
    (deep : ¬ φ.Shallow 0) : ∃ position,
      parseFormula (φ.namedText alphabet) alphabet = .error (.nestingTooDeep position maxDepth) := by
  obtain ⟨lexemes, position, same, scanned⟩ := tokenize_namedText named
  have operand : TooDeep (operand alphabet (maxDepth + 1)) (φ.tokens alphabet.shown) :=
    tooDeep_tokens plural named rfl deep
  obtain ⟨left, failed⟩ := operand.loosen .operand lexemes [] same
  rw [List.append_nil] at failed
  refine ⟨nextPosition (.finished position) left, ?_⟩
  simp only [parseFormula_eq_parseTokens, parseTokens, scanned, formula, failed, Failure.locate]

/-- Writing and reading undo each other. A formula whose junctions have at least two
operands each, as simplified and read formulas have, is read back as it was from its
text with names, if no leaf has more than `maxDepth` ancestors; otherwise its text is
refused for its depth. The names have to be words that are not reserved, and none may
stand for an earlier proposition. -/
theorem parse_namedText (φ : Formula) (alphabet : Alphabet) :
    φ.simplify.Plural ∧ (∀ text, parseFormula text alphabet = .ok φ → φ.Plural) ∧
      (φ.Plural → φ.NamedIn alphabet →
        ((∀ n ∈ φ.leafDepths, n ≤ maxDepth) →
          parseFormula (φ.namedText alphabet) alphabet = .ok φ) ∧
        ((∃ n ∈ φ.leafDepths, maxDepth < n) → ∃ position,
          parseFormula (φ.namedText alphabet) alphabet =
            .error (.nestingTooDeep position maxDepth))) := by
  refine ⟨(normal_simplify φ).plural, ?_, ?_⟩
  · intro text read
    obtain ⟨_, _, derives⟩ := parseFormula_eq_ok_iff.mp read
    exact derives.plural
  · intro plural named
    have shallow : φ.Shallow 0 ↔ ∀ n ∈ φ.leafDepths, n ≤ maxDepth := by
      simp only [Shallow, Nat.zero_add]
    constructor
    · intro small
      exact parseFormula_namedText plural named (shallow.mpr small)
    · rintro ⟨n, member, large⟩
      apply parseFormula_tooDeep plural named
      rw [shallow]
      intro small
      exact absurd (small n member) (Nat.not_le.mpr large)

/-- A formula that is read back, and a negation too many. -/
theorem parse_namedText_negations :
    parseFormula "(a => (not b or false))" ⟨["a", "b"]⟩ =
        .ok (.implies (.atom 0) (.junction .any [.neg (.atom 1), .bot])) ∧
      ∃ position, parseFormula ((neg^[65] top).namedText ⟨[]⟩) ⟨[]⟩ =
        .error (.nestingTooDeep position 64) := by
  constructor
  · have plural : (implies (atom 0) (junction .any [neg (atom 1), bot])).Plural :=
      .implies (.atom 0) (.junction (by decide) (by simp [Plural.neg, Plural.atom, Plural.bot]))
    have named : (implies (atom 0) (junction .any [neg (atom 1), bot])).NamedIn ⟨["a", "b"]⟩ := by
      intro i member
      have a : IsIdentifier "a" := ⟨⟨'a', [], rfl, by decide, List.forall_mem_nil _⟩, by decide⟩
      have b : IsIdentifier "b" := ⟨⟨'b', [], rfl, by decide, List.forall_mem_nil _⟩, by decide⟩
      rcases List.mem_pair.mp member with rfl | rfl
      · exact ⟨"a", ⟨rfl, by decide⟩, a⟩
      · exact ⟨"b", ⟨rfl, by decide⟩, b⟩
    have read := (parse_namedText _ _).2.2 plural named
    exact read.1 (by simp [leafDepths, maxDepth])
  · have plural : ∀ n, (neg^[n] top).Plural := by
      intro n
      induction n with
      | zero => exact .top
      | succ n ih => rw [Function.iterate_succ_apply']; exact .neg ih
    have depths : ∀ n, (neg^[n] top).leafDepths = [n] := by
      intro n
      induction n with
      | zero => rw [Function.iterate_zero_apply, leafDepths]
      | succ n ih => rw [Function.iterate_succ_apply', leafDepths, ih, List.map_singleton]
    have named : (neg^[65] top).NamedIn ⟨[]⟩ := fun i none => nomatch none
    have refused := (parse_namedText (neg^[65] top) ⟨[]⟩).2.2 (plural 65) named
    exact refused.2 ⟨65, by rw [depths]; exact List.mem_singleton_self 65, by decide⟩

end Texts

end TemporalRewards
