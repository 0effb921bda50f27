import TemporalRewards.Proofs.Syntax.Agreement
import TemporalRewards.Proofs.Syntax.Derivations

/-! The reader of formulas against the grammar. It answers just what can be derived from
the tokens that it takes, so no token list has two readings, and a text is read by its
tokens alone. -/
namespace TemporalRewards

namespace Grammar

variable {alphabet : Alphabet} {level tighter : Level} {depth : Nat} {tokens : List Token}
  {φ : Formula} {separator : Token}

section Readers

/-- None of the tokens that would carry on a formula comes next. -/
def Stops (more : List Token) (rest : List Lexeme) : Prop :=
  ∀ lexeme ∈ rest.head?, lexeme.token ∉ more

/-- A reader of a language takes what the language has, unless it could be carried on,
and takes nothing else. -/
structure Reads (reader : Parser) (more : List Token) (language : List Token → Formula → Prop) :
    Prop where
  sound {lexemes φ rest} : reader lexemes = .ok (φ, rest) →
    ∃ used, lexemes = used ++ rest ∧ language (used.map (·.token)) φ
  complete {used φ rest} : language (used.map (·.token)) φ → Stops more rest →
    reader (used ++ rest) = .ok (φ, rest)

variable {reader : Parser} {more : List Token} {language other : List Token → Formula → Prop}
  {separator : Token} {build : Formula → List Formula → Formula} {lexemes used rest : List Lexeme}
  {parts : List (List Token × Formula)}

theorem Stops.mono {fewer : List Token} (stops : Stops more rest) (sub : ∀ t ∈ fewer, t ∈ more) :
    Stops fewer rest :=
  fun lexeme next carries => stops lexeme next (sub _ carries)

theorem stops_nil : Stops [] rest := fun _ _ => List.not_mem_nil

theorem Reads.congr (reads : Reads reader more language)
    (same : ∀ {tokens φ}, language tokens φ ↔ other tokens φ) : Reads reader more other where
  sound answer := by
    obtain ⟨used, split, derives⟩ := reads.sound answer
    exact ⟨used, split, same.mp derives⟩
  complete derives := reads.complete (same.mpr derives)

theorem operandsAfter_sound (reads : Reads reader more language) {bound : Nat} {φs : List Formula}
    (answer : operandsAfter separator reader bound lexemes = .ok (φs, rest)) :
    ∃ used parts, lexemes = used ++ rest ∧ used.map (·.token) = tokensAfter separator parts ∧
      φs = parts.map (·.2) ∧ ∀ part ∈ parts, language part.1 part.2 := by
  fun_induction operandsAfter separator reader bound lexemes generalizing φs with
  | case1 | case2 => contradiction
  | case3 bound lexeme lexemes next φ middle first others later answered ih =>
    obtain ⟨rfl, rfl⟩ := Prod.mk.inj (Except.ok.inj answer)
    obtain ⟨used₁, rfl, derives⟩ := reads.sound first
    obtain ⟨used₂, parts, rfl, spelled, rfl, each⟩ := ih answered
    refine ⟨lexeme :: (used₁ ++ used₂), (used₁.map (·.token), φ) :: parts, ?_, ?_, rfl, ?_⟩
    · simp
    · simp [tokensAfter, spelled, next]
    · exact List.forall_mem_cons.mpr ⟨derives, each⟩
  | case4 | case5 =>
    obtain ⟨rfl, rfl⟩ := Prod.mk.inj (Except.ok.inj answer)
    exact ⟨[], [], rfl, rfl, rfl, List.forall_mem_nil _⟩

theorem operandsAfter_of_stops {bound : Nat} (stops : Stops (separator :: more) rest) :
    operandsAfter separator reader bound rest = .ok ([], rest) := by
  fun_cases operandsAfter separator reader bound rest with
  | case1 _ lexeme _ next | case2 _ lexeme _ next | case3 _ lexeme _ next =>
    exact absurd (next ▸ List.mem_cons_self) (stops lexeme rfl)
  | case4 | case5 => rfl

/-- A separator does not carry on the operand in front of it. -/
theorem stops_tokensAfter (fresh : separator ∉ more)
    (spelled : used.map (·.token) = tokensAfter separator parts)
    (stops : parts = [] → Stops (separator :: more) rest) : Stops more (used ++ rest) := by
  cases parts with
  | nil =>
    obtain rfl := List.map_eq_nil_iff.mp spelled
    exact (stops rfl).mono fun t => List.mem_cons_of_mem separator
  | cons part parts =>
    obtain ⟨lexeme, used, rfl, same, _⟩ := List.map_eq_cons_iff.mp spelled
    rintro _ ⟨⟩ carries
    exact fresh (same ▸ carries)

theorem operandsAfter_complete (reads : Reads reader more language) (fresh : separator ∉ more)
    {bound : Nat} (each : ∀ part ∈ parts, language part.1 part.2)
    (spelled : used.map (·.token) = tokensAfter separator parts) (enough : used.length ≤ bound)
    (stops : Stops (separator :: more) rest) :
    operandsAfter separator reader bound (used ++ rest) = .ok (parts.map (·.2), rest) := by
  induction parts generalizing used bound with
  | nil =>
    obtain rfl := List.map_eq_nil_iff.mp spelled
    exact operandsAfter_of_stops stops
  | cons part parts ih =>
    obtain ⟨derives, each⟩ := List.forall_mem_cons.mp each
    obtain ⟨lexeme, tail, rfl, next, spelled⟩ := List.map_eq_cons_iff.mp spelled
    obtain ⟨used₁, used₂, rfl, same, spelled⟩ := List.map_eq_append_iff.mp spelled
    have first := reads.complete (same ▸ derives) (stops_tokensAfter fresh spelled fun _ => stops)
    rw [List.length_cons, List.length_append] at enough
    obtain ⟨bound, rfl⟩ : ∃ b, bound = b + 1 := Nat.exists_eq_add_one.mpr (by omega)
    have others : operandsAfter separator reader bound (used₂ ++ rest) =
        .ok (parts.map (·.2), rest) := ih each spelled (by omega)
    rw [List.cons_append, operandsAfter, if_pos next, List.append_assoc, first]
    simp only [others, List.map_cons]

/-- One level of infix operators over a reader. -/
theorem Reads.chain (reads : Reads reader more language) (fresh : separator ∉ more) :
    Reads (chain separator build reader) (separator :: more) (Separated separator build language) where
  sound {lexemes φ rest} answer := by
    rw [Grammar.chain] at answer
    split at answer
    · contradiction
    rename_i first middle answered
    split at answer
    · contradiction
    rename_i others _ later
    obtain ⟨rfl, rfl⟩ := Prod.mk.inj (Except.ok.inj answer)
    obtain ⟨used₁, rfl, derives⟩ := reads.sound answered
    obtain ⟨used₂, parts, rfl, spelled, rfl, each⟩ := operandsAfter_sound reads later
    refine ⟨used₁ ++ used₂, by simp, (used₁.map (·.token), first), parts, ?_, ?_, rfl⟩
    · exact List.forall_mem_cons.mpr ⟨derives, each⟩
    · rw [List.map_append, spelled]
  complete {used φ rest} derives stops := by
    obtain ⟨first, others, each, spelled, rfl⟩ := derives
    obtain ⟨derives, each⟩ := List.forall_mem_cons.mp each
    obtain ⟨used₁, used₂, rfl, same, spelled⟩ := List.map_eq_append_iff.mp spelled
    have answered := reads.complete (same ▸ derives) (stops_tokensAfter fresh spelled fun _ => stops)
    have later : operandsAfter separator reader (used₂ ++ rest).length (used₂ ++ rest) =
        .ok (others.map (·.2), rest) :=
      operandsAfter_complete reads fresh each spelled (by simp) stops
    rw [Grammar.chain, List.append_assoc, answered]
    simp only [later]

end Readers

section Levels

variable {operator : Formula → Formula → Formula} {kind : Junction}

theorem Reads.binary {reader : Parser} {more : List Token}
    (reads : Reads reader more (Derives alphabet tighter depth))
    (binary : Binary level separator operator tighter) (fresh : separator ∉ more) :
    Reads (Grammar.chain separator (toTheRight operator) reader) (separator :: more)
      (Derives alphabet level depth) :=
  (reads.chain fresh).congr (separated_iff_of_binary binary)

theorem Reads.multiple {reader : Parser} {more : List Token}
    (reads : Reads reader more (Derives alphabet tighter depth))
    (multiple : Multiple level separator kind tighter) (fresh : separator ∉ more) :
    Reads (Grammar.chain separator (together kind) reader) (separator :: more)
      (Derives alphabet level depth) :=
  (reads.chain fresh).congr (separated_iff_of_multiple multiple)

def untils (operand : Parser) : Parser := chain .untilWord (toTheRight .strongUntil) operand

def conjunctions (operand : Parser) : Parser := chain .andWord (together .all) (untils operand)

def disjunctions (operand : Parser) : Parser :=
  chain .orWord (together .any) (conjunctions operand)

/-- What reads a level, over a reader of operands. -/
def Level.reader (operand : Parser) : Level → Parser
  | .implication => expression operand
  | .disjunction => disjunctions operand
  | .conjunction => conjunctions operand
  | .strongUntil => untils operand
  | .operand => operand

/-- The tokens that would carry on a formula of a level. -/
def Level.separators : Level → List Token
  | .implication => [.arrow, .orWord, .andWord, .untilWord]
  | .disjunction => [.orWord, .andWord, .untilWord]
  | .conjunction => [.andWord, .untilWord]
  | .strongUntil => [.untilWord]
  | .operand => []

/-- Over a reader of operands, every level is read exactly. -/
theorem reads_level {reader : Parser} (reads : Reads reader [] (Derives alphabet .operand depth))
    (level : Level) :
    Reads (level.reader reader) level.separators (Derives alphabet level depth) := by
  have untils := reads.binary .strongUntil List.not_mem_nil
  have conjunctions := untils.multiple .all (by simp)
  have disjunctions := conjunctions.multiple .any (by simp)
  cases level with
  | implication => exact disjunctions.binary .implies (by simp)
  | disjunction => exact disjunctions
  | conjunction => exact conjunctions
  | strongUntil => exact untils
  | operand => exact reads

theorem operand_applied {room : Nat} {lexeme : Lexeme} {rest : List Lexeme}
    {prefixed : Formula → Formula} (found : PrefixOperator lexeme.token prefixed) :
    operand alphabet (room + 1) (lexeme :: rest) =
      applied prefixed (operand alphabet room rest) := by
  obtain ⟨token, position⟩ := lexeme
  cases found <;> rfl

theorem applied_ok {prefixed : Formula → Formula} {answer : Except Failure (Formula × List Lexeme)}
    {rest : List Lexeme} (answered : applied prefixed answer = .ok (φ, rest)) :
    ∃ ψ, answer = .ok (ψ, rest) ∧ φ = prefixed ψ := by
  unfold applied at answered
  split at answered
  · contradiction
  · obtain ⟨rfl, rfl⟩ := Prod.mk.inj (Except.ok.inj answered)
    exact ⟨_, rfl, rfl⟩

theorem closed_ok {answer : Except Failure (Formula × List Lexeme)} {rest : List Lexeme}
    (answered : closed answer = .ok (φ, rest)) :
    ∃ position, answer = .ok (φ, ⟨.closing, position⟩ :: rest) := by
  unfold closed at answered
  split at answered
  · contradiction
  · split at answered
    · obtain ⟨rfl, rfl⟩ := Prod.mk.inj (Except.ok.inj answered)
      exact ⟨_, rfl⟩
    · contradiction

/-- Operands are read exactly, with as many levels still open as the limit leaves. -/
theorem reads_operand {room : Nat} (levels : room + depth = maxDepth + 1) :
    Reads (operand alphabet room) [] (Derives alphabet .operand depth) := by
  induction room generalizing depth with
  | zero =>
    constructor
    · intro lexemes φ rest answer
      rw [operand] at answer
      contradiction
    · intro used φ rest derives
      have small := derives.depth_le
      omega
  | succ room ih =>
    have inner := @ih (depth + 1) (by omega)
    constructor
    · intro lexemes φ rest answer
      cases lexemes with
      | nil =>
        rw [operand] at answer
        contradiction
      | cons lexeme lexemes =>
        by_cases found : ∃ prefixed, PrefixOperator lexeme.token prefixed
        · obtain ⟨prefixed, found⟩ := found
          rw [operand_applied found] at answer
          obtain ⟨ψ, answered, rfl⟩ := applied_ok answer
          obtain ⟨used, rfl, derives⟩ := inner.sound answered
          exact ⟨lexeme :: used, rfl, .applied found derives⟩
        obtain ⟨token, position⟩ := lexeme
        cases token with
        | notWord => exact absurd ⟨_, .not⟩ found
        | nextWord => exact absurd ⟨_, .next⟩ found
        | eventuallyWord => exact absurd ⟨_, .eventually⟩ found
        | alwaysWord => exact absurd ⟨_, .always⟩ found
        | opening =>
          obtain ⟨closing, answered⟩ := closed_ok answer
          obtain ⟨used, rfl, derives⟩ := (reads_level inner .implication).sound answered
          refine ⟨⟨.opening, position⟩ :: (used ++ [⟨.closing, closing⟩]), by simp, ?_⟩
          simpa using derives.enclosed
        | trueWord =>
          obtain ⟨rfl, rfl⟩ := Prod.mk.inj (Except.ok.inj answer)
          exact ⟨[⟨.trueWord, position⟩], rfl, .top (by omega)⟩
        | falseWord =>
          obtain ⟨rfl, rfl⟩ := Prod.mk.inj (Except.ok.inj answer)
          exact ⟨[⟨.falseWord, position⟩], rfl, .bot (by omega)⟩
        | ident name =>
          simp only [operand] at answer
          split at answer
          · rename_i i place
            obtain ⟨rfl, rfl⟩ := Prod.mk.inj (Except.ok.inj answer)
            exact ⟨[⟨.ident name, position⟩], rfl,
              .name (by omega) (Alphabet.index?_eq_some_iff.mp place)⟩
          · contradiction
        | andWord | orWord | arrow | untilWord | closing => contradiction
    · intro used φ rest derives _
      generalize spelled : used.map (·.token) = tokens at derives
      cases derives with
      | right found | last found => cases found
      | several found | single found => cases found
      | applied found derives =>
        obtain ⟨lexeme, used, rfl, rfl, rfl⟩ := List.map_eq_cons_iff.mp spelled
        rw [List.cons_append, operand_applied found, inner.complete derives stops_nil]
        rfl
      | enclosed derives =>
        obtain ⟨⟨_, position⟩, inside, rfl, rfl, split⟩ := List.map_eq_cons_iff.mp spelled
        obtain ⟨inside, last, rfl, rfl, ending⟩ := List.map_eq_append_iff.mp split
        obtain ⟨⟨_, closing⟩, _, rfl, rfl, nothing⟩ := List.map_eq_cons_iff.mp ending
        obtain rfl := List.map_eq_nil_iff.mp nothing
        have stops : Stops Level.implication.separators (⟨.closing, closing⟩ :: rest) := by
          rintro _ ⟨⟩
          simp [Level.separators]
        have answered := (reads_level inner .implication).complete derives stops
        rw [Level.reader] at answered
        rw [List.cons_append, List.append_assoc, List.singleton_append, operand, answered]
        rfl
      | top | bot =>
        obtain ⟨⟨_, position⟩, _, rfl, rfl, nothing⟩ := List.map_eq_cons_iff.mp spelled
        obtain rfl := List.map_eq_nil_iff.mp nothing
        rfl
      | name _ place =>
        obtain ⟨⟨_, position⟩, _, rfl, rfl, nothing⟩ := List.map_eq_cons_iff.mp spelled
        obtain rfl := List.map_eq_nil_iff.mp nothing
        simp only [List.singleton_append, operand, Alphabet.index?_eq_some_iff.mpr place]

end Levels

/-- The reader of formulas reads exactly what the grammar derives. -/
theorem reads_formula (alphabet : Alphabet) :
    Reads (formula alphabet) Level.implication.separators (Derives alphabet .implication 0) := by
  have operands : Reads (operand alphabet (maxDepth + 1)) [] (Derives alphabet .operand 0) :=
    reads_operand rfl
  exact reads_level operands .implication

/-- All of a token list is read just when the grammar derives it. -/
theorem formula_eq_ok_iff {lexemes : List Lexeme} :
    formula alphabet lexemes = .ok (φ, []) ↔
      Derives alphabet .implication 0 (lexemes.map (·.token)) φ := by
  constructor
  · intro answer
    obtain ⟨used, rfl, derives⟩ := (reads_formula alphabet).sound answer
    rwa [List.append_nil]
  · intro derives
    have stops : Stops Level.implication.separators [] := fun _ none => nomatch none
    have answer := (reads_formula alphabet).complete derives stops
    rwa [List.append_nil] at answer

/-- At most one formula can be derived from a token list. -/
theorem derives_unique {ψ : Formula} (first : Derives alphabet .implication 0 tokens φ)
    (second : Derives alphabet .implication 0 tokens ψ) : φ = ψ := by
  -- Tokens get positions, so that the reader can be asked.
  have read : ∀ {χ}, Derives alphabet .implication 0 tokens χ →
      formula alphabet (tokens.map (⟨·, 0⟩)) = .ok (χ, []) := by
    intro χ derives
    apply formula_eq_ok_iff.mpr
    rwa [List.map_map, Function.comp_def, List.map_id']
  have same := (read first).symm.trans (read second)
  exact (Prod.mk.inj (Except.ok.inj same)).1

end Grammar

section Texts

variable {text other : String} {alphabet : Alphabet} {lexemes : List Lexeme} {φ : Formula}

theorem tokenize_eq_ok_iff :
    tokenize text = .ok lexemes ↔ ∃ position, Scan.ofText text = ⟨lexemes, .finished position⟩ := by
  rw [tokenize]
  obtain ⟨found, stop⟩ := Scan.ofText text
  cases stop with
  | finished position => simp
  | unrecognized position symbol => simp

/-- A text is read as a formula just when all of it can be split into tokens and the
grammar derives the formula from them. -/
theorem parseFormula_eq_ok_iff : parseFormula text alphabet = .ok φ ↔
    ∃ lexemes, tokenize text = .ok lexemes ∧
      Grammar.Derives alphabet .implication 0 (lexemes.map (·.token)) φ := by
  rw [parseFormula_eq_parseTokens]
  constructor
  · intro parsed
    dsimp only [parseTokens] at parsed
    split at parsed
    · contradiction
    · contradiction
    · rename_i answer
      split at parsed
      · rename_i position stop
        obtain rfl := Except.ok.inj parsed
        refine ⟨_, tokenize_eq_ok_iff.mpr ⟨position, ?_⟩, Grammar.formula_eq_ok_iff.mp answer⟩
        rw [← stop]
      · contradiction
  · rintro ⟨lexemes, tokenized, derives⟩
    obtain ⟨position, scanned⟩ := tokenize_eq_ok_iff.mp tokenized
    simp only [parseTokens, scanned, Grammar.formula_eq_ok_iff.mpr derives]

/-- Texts with the same tokens are read as the same formula. -/
theorem parseFormula_congr {others : List Lexeme} (first : tokenize text = .ok lexemes)
    (second : tokenize other = .ok others)
    (same : lexemes.map (·.token) = others.map (·.token)) :
    parseFormula text alphabet = .ok φ ↔ parseFormula other alphabet = .ok φ := by
  rw [parseFormula_eq_ok_iff, parseFormula_eq_ok_iff, first, second]
  simp only [Except.ok.injEq, exists_eq_left', same]

/-- What is read from a text is what the grammar derives from its tokens, with at most
`Grammar.maxDepth` parentheses and prefix operators around every operand. The tokens
leave no choice of the formula, and nothing else of the text counts. -/
theorem parseFormula_exact (text : String) (alphabet : Alphabet) :
    (∀ φ, parseFormula text alphabet = .ok φ ↔ ∃ lexemes, tokenize text = .ok lexemes ∧
        Grammar.Derives alphabet .implication 0 (lexemes.map (·.token)) φ) ∧
      (∀ tokens φ ψ, Grammar.Derives alphabet .implication 0 tokens φ →
        Grammar.Derives alphabet .implication 0 tokens ψ → φ = ψ) ∧
      ∀ other lexemes others, tokenize text = .ok lexemes → tokenize other = .ok others →
        lexemes.map (·.token) = others.map (·.token) →
        ∀ φ, parseFormula text alphabet = .ok φ ↔ parseFormula other alphabet = .ok φ := by
  refine ⟨?_, ?_, ?_⟩
  · intro φ
    exact parseFormula_eq_ok_iff
  · intro tokens φ ψ first second
    exact Grammar.derives_unique first second
  · intro other lexemes others first second same φ
    exact parseFormula_congr first second same

/-- The blanks in `a => X b` may be left out but for the one behind the `X`. -/
theorem parseFormula_exact_blanks :
    parseFormula "a=>X b" ⟨["a", "b"]⟩ = .ok (.implies (.atom 0) (.next (.atom 1))) ∧
      parseFormula " a => X  b " ⟨["a", "b"]⟩ = .ok (.implies (.atom 0) (.next (.atom 1))) := by
  have tight : tokenize "a=>X b" =
      .ok [⟨.ident "a", 0⟩, ⟨.arrow, 1⟩, ⟨.nextWord, 3⟩, ⟨.ident "b", 5⟩] := by decide +kernel
  have loose : tokenize " a => X  b " =
      .ok [⟨.ident "a", 1⟩, ⟨.arrow, 3⟩, ⟨.nextWord, 6⟩, ⟨.ident "b", 9⟩] := by decide +kernel
  have left : Grammar.Derives ⟨["a", "b"]⟩ .operand 0 [.ident "a"] (.atom 0) :=
    .name (by decide) ⟨rfl, by decide⟩
  have right : Grammar.Derives ⟨["a", "b"]⟩ .operand 0 [.nextWord, .ident "b"] (.next (.atom 1)) :=
    .applied .next (.name (by decide) ⟨rfl, by decide⟩)
  have exact := parseFormula_exact "a=>X b" ⟨["a", "b"]⟩
  have read := (exact.1 _).mpr ⟨_, tight, .right .implies left.atLevel right.atLevel⟩
  exact ⟨read, (exact.2.2 _ _ _ tight loose rfl _).mp read⟩

end Texts

end TemporalRewards
