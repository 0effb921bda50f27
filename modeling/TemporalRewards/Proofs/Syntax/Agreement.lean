import TemporalRewards.Proofs.Syntax.Ahead

/-! The parsers of text against the readers of tokens. Wherever a parser stands in a text, it does
with the text that is left what the reader of the same rule does with the tokens in it: both read
the same formula and leave the same tokens, or both fail, and the failures are the same error of
the whole text. -/
namespace TemporalRewards

open Token TextGrammar

variable {α : Type}

/-- A parser and a reader answer the same where the tokens are ahead of the text. -/
inductive Same (input : List Char) (stop : Stop) (text : List Char) (lexemes : List Lexeme) :
    Outcome α → Except Grammar.Failure (α × List Lexeme) → Prop where
  | ok {rest later value} : Ahead input stop rest later → rest.length ≤ text.length →
      later.length ≤ lexemes.length →
      Same input stop text lexemes (.ok rest value) (.ok (value, later))
  | recoverable {failure other} : failure.locate input = other.locate stop →
      Same input stop text lexemes (.recoverable failure) (.error other)
  | final {failure other} : failure.locate input = other.locate stop →
      Same input stop text lexemes (.final failure) (.error other)

/-- A parser does with every text what a reader does with the tokens ahead. -/
def Follows (parser : Parser α)
    (reader : List Lexeme → Except Grammar.Failure (α × List Lexeme)) : Prop :=
  ∀ ⦃input text stop lexemes⦄, Ahead input stop text lexemes →
    Same input stop text lexemes (parser text) (reader lexemes)

section Following

variable {β : Type} {input text rest : List Char} {stop : Stop} {lexemes later : List Lexeme}
  {operand : Parser Formula} {reader : Grammar.Parser} {outcome : Outcome α}
  {answer : Except Grammar.Failure (α × List Lexeme)} {wanted : Token}

theorem Same.widen (same : Same input stop rest later outcome answer)
    (shorter : rest.length ≤ text.length) (fewer : later.length ≤ lexemes.length) :
    Same input stop text lexemes outcome answer := by
  cases same with
  | ok ahead short few => exact .ok ahead (Nat.le_trans short shorter) (Nat.le_trans few fewer)
  | recoverable located => exact .recoverable located
  | final located => exact .final located

theorem Same.behind {lexeme : Lexeme} (same : Same input stop rest lexemes outcome answer)
    (shorter : rest.length < text.length) :
    Same input stop text (lexeme :: lexemes) outcome answer :=
  same.widen (Nat.le_of_lt shorter) (Nat.le_succ _)

theorem Same.ok_of_ahead (ahead : Ahead input stop text lexemes) (value : α) :
    Same input stop text lexemes (.ok text value) (.ok (value, lexemes)) :=
  .ok ahead (Nat.le_refl _) (Nat.le_refl _)

/-- Two that answer the same, and then two more. -/
theorem Same.andThen {next : List Char → α → Outcome β}
    {other : α × List Lexeme → Except Grammar.Failure (β × List Lexeme)}
    (same : Same input stop text lexemes outcome answer)
    (go : ∀ {rest later value}, Ahead input stop rest later → later.length ≤ lexemes.length →
      Same input stop rest later (next rest value) (other (value, later))) :
    Same input stop text lexemes (outcome.andThen next) (answer.bind other) := by
  cases same with
  | ok ahead shorter fewer => exact (go ahead fewer).widen shorter fewer
  | recoverable located => exact .recoverable located
  | final located => exact .final located

theorem Same.cut {parser : Parser α} (same : Same input stop text lexemes (parser text) answer) :
    Same input stop text lexemes (cut parser text) answer := by
  rw [TextGrammar.cut]
  generalize parser text = outcome at same
  cases same with
  | ok ahead shorter fewer => exact .ok ahead shorter fewer
  | recoverable located => exact .final located
  | final located => exact .final located

theorem Same.length_le {value : α} (same : Same input stop text lexemes (.ok rest value) answer) :
    rest.length ≤ text.length := by
  cases same
  assumption

theorem operandsAfter_cons {lexeme : Lexeme} (next : lexeme.token = wanted) (bound : Nat) :
    Grammar.operandsAfter wanted reader (bound + 1) (lexeme :: lexemes) =
      (reader lexemes).bind fun first =>
        (Grammar.operandsAfter wanted reader bound first.2).bind fun others =>
          .ok (first.1 :: others.1, others.2) := by
  rw [Grammar.operandsAfter, if_pos next]
  cases reader lexemes with
  | error => rfl
  | ok first =>
    dsimp only [Except.bind]
    cases Grammar.operandsAfter wanted reader bound first.2 <;> rfl

theorem chain_eq (build : Formula → List Formula → Formula) (lexemes : List Lexeme) :
    Grammar.chain wanted build reader lexemes =
      (reader lexemes).bind fun first =>
        (Grammar.operandsAfter wanted reader first.2.length first.2).bind fun others =>
          .ok (build first.1 others.1, others.2) := by
  rw [Grammar.chain]
  cases reader lexemes with
  | error => rfl
  | ok first =>
    dsimp only [Except.bind]
    cases Grammar.operandsAfter wanted reader first.2.length first.2 <;> rfl

theorem separated_eq (separator : Parser α) (build : Formula → List Formula → Formula)
    (text : List Char) :
    separated separator build operand text =
      (operand text).andThen fun rest first =>
        (many (preceded separator (cut operand)) rest).andThen fun rest others =>
          .ok rest (build first others) := by
  rw [separated, map, pair]
  cases operand text with
  | ok rest first =>
    dsimp only [Outcome.andThen]
    cases many (preceded separator (cut operand)) rest <;> rfl
  | recoverable failure => rfl
  | final failure => rfl

section Operands

variable {separator : Parser α} {result : α} (follows : Follows operand reader)
  (passes : Passes separator (only wanted result))

include passes in
theorem many_of_passed (ahead : Ahead input stop text lexemes)
    (differs : ∀ lexeme ∈ lexemes.head?, lexeme.token ≠ wanted) :
    many (preceded separator (cut operand)) text = .ok text [] := by
  have failed := passes.refused ahead fun lexeme next => if_neg (differs lexeme next)
  exact many_of_recoverable (by rw [preceded, failed]; rfl)

include follows passes

/-- Operands are read as long as a separator comes first. -/
theorem same_many {bound : Nat} (ahead : Ahead input stop text lexemes)
    (enough : lexemes.length ≤ bound) :
    Same input stop text lexemes (many (preceded separator (cut operand)) text)
      (Grammar.operandsAfter wanted reader bound lexemes) := by
  -- every separator that is passed is one token less, and `bound` counts the tokens ahead
  induction bound generalizing text lexemes with
  | zero =>
    obtain rfl := List.length_eq_zero_iff.mp (Nat.le_zero.mp enough)
    rw [many_of_passed passes ahead forall_head_nil]
    exact .ok_of_ahead ahead []
  | succ bound ih =>
    cases lexemes with
    | nil =>
      rw [many_of_passed passes ahead forall_head_nil]
      exact .ok_of_ahead ahead []
    | cons lexeme lexemes =>
      by_cases next : lexeme.token = wanted
      · obtain ⟨rest, read, shorter, behind⟩ := passes.passed ahead (if_pos next)
        have same := (follows behind).cut
        have step : preceded separator (cut operand) text = cut operand rest := by
          rw [preceded, read]
          rfl
        rw [operandsAfter_cons next, many_of_settled, step]
        · refine Same.behind ?_ shorter
          refine same.andThen fun ahead fewer => ?_
          have others := ih ahead (Nat.le_trans fewer (Nat.le_of_succ_le_succ enough))
          exact others.andThen fun ahead _ => .ok_of_ahead ahead _
        · rw [step]
          exact settled_cut operand rest
        · intro left φ first
          rw [← step, first] at same
          exact Nat.lt_of_le_of_lt same.length_le shorter
      · rw [many_of_passed passes ahead (forall_head_cons_iff.mpr next), Grammar.operandsAfter,
          if_neg next]
        exact .ok_of_ahead ahead []

/-- A level of infix operators. -/
theorem follows_separated (build : Formula → List Formula → Formula) :
    Follows (separated separator build operand) (Grammar.chain wanted build reader) := by
  intro input text stop lexemes ahead
  rw [chain_eq, separated_eq]
  refine (follows ahead).andThen fun ahead _ => ?_
  have others := same_many follows passes ahead (Nat.le_refl _)
  exact others.andThen fun ahead _ => .ok_of_ahead ahead _

end Operands

theorem toTheRight_concat (operator : Formula → Formula → Formula) (first last : Formula)
    (others : List Formula) :
    Grammar.toTheRight operator first (others ++ [last]) =
      operator first (others.foldr operator last) := by
  induction others generalizing first with
  | nil => rfl
  | cons second others ih => rw [List.cons_append, Grammar.toTheRight, ih, List.foldr_cons]

theorem foldRight_eq (operator : Formula → Formula → Formula) :
    foldRight operator = Grammar.toTheRight operator := by
  funext first others
  rcases List.eq_nil_or_concat' others with rfl | ⟨others, last, rfl⟩
  · rfl
  · rw [toTheRight_concat, foldRight, List.getLast?_concat, List.dropLast_concat]

theorem junction_eq (kind : Junction) : junction kind = Grammar.together kind := by
  funext first others
  cases others <;> rfl

/-- The four levels of infix operators. -/
theorem follows_expression (follows : Follows operand reader) :
    Follows (expression operand) (Grammar.expression reader) := by
  have untils := follows_separated follows (passes_keyword "U" (by decide))
    (foldRight .strongUntil)
  have conjunctions := follows_separated untils (passes_keyword "and" (by decide))
    (junction .all)
  have disjunctions := follows_separated conjunctions
    (passes_keyword "or" (by decide)) (junction .any)
  have implications := follows_separated disjunctions (passes_afterBlanks takes_arrow)
    (foldRight .implies)
  simp only [foldRight_eq, junction_eq] at implications
  rw [expression, foldRight_eq, foldRight_eq, junction_eq, junction_eq]
  exact implications

section Operand

variable {inner : Parser Formula} {alphabet : Alphabet} {lexeme : Lexeme} {position : Nat}
  {failure : Failure}

theorem applied_eq (operator : Formula → Formula)
    (answer : Except Grammar.Failure (Formula × List Lexeme)) :
    Grammar.applied operator answer = answer.bind fun read => .ok (operator read.1, read.2) := by
  cases answer <;> rfl

theorem closed_eq (answer : Except Grammar.Failure (Formula × List Lexeme)) :
    Grammar.closed answer = answer.bind fun read => Grammar.closed (.ok read) := by
  cases answer <;> rfl

/-- A prefix operator is applied to the operand that must follow. -/
theorem same_applied {operator : Formula → Formula} (follows : Follows inner reader)
    (ahead : Ahead input stop text (lexeme :: lexemes))
    (found : prefixOf lexeme.token = some operator) (other : Parser Formula) :
    Same input stop text (lexeme :: lexemes)
      (alt (map (fun applied => applied.1 applied.2) (pair prefixOperator (cut inner))) other text)
      (Grammar.applied operator (reader lexemes)) := by
  obtain ⟨rest, read, shorter, behind⟩ := passes_prefixOperator.passed ahead found
  have applied : map (fun applied => applied.1 applied.2) (pair prefixOperator (cut inner)) text =
      (cut inner rest).andThen fun rest φ => .ok rest (operator φ) := by
    rw [map, pair, read]
    dsimp only [Outcome.andThen]
    cases cut inner rest <;> rfl
  rw [alt_of_settled, applied, applied_eq]
  · refine Same.behind ?_ shorter
    exact (follows behind).cut.andThen fun ahead _ => .ok_of_ahead ahead _
  · rw [applied]
    exact (settled_cut inner rest).andThen fun _ _ => Outcome.settled_ok _ _

/-- The parenthesis that must close what was read. -/
theorem same_closed (ahead : Ahead input stop text lexemes) (φ : Formula) :
    Same input stop text lexemes
      ((cut (expect (afterBlanks (char ')')) .closing) text).andThen fun rest _ => .ok rest φ)
      (Grammar.closed (.ok (φ, lexemes))) := by
  have passes := passes_afterBlanks takes_closing
  by_cases closes : ∃ lexeme later, lexemes = lexeme :: later ∧ lexeme.token = .closing
  · obtain ⟨⟨_, position⟩, later, rfl, rfl⟩ := closes
    obtain ⟨rest, read, shorter, behind⟩ := passes.passed ahead rfl
    rw [cut, expect, read]
    exact (Same.ok_of_ahead behind _).behind shorter
  · have differs : ∀ lexeme ∈ lexemes.head?, only Token.closing ')' lexeme.token = none := by
      intro lexeme first
      obtain ⟨later, rfl⟩ : ∃ later, lexemes = lexeme :: later := List.head?_eq_some_iff.mp first
      exact if_neg fun same => closes ⟨lexeme, later, rfl, same⟩
    have missing : Grammar.closed (.ok (φ, lexemes)) = .error (.expected .closing lexemes) := by
      unfold Grammar.closed
      dsimp only
      split
      · exact absurd ⟨_, _, rfl, rfl⟩ closes
      · rfl
    rw [cut, expect, passes.refused ahead differs, missing]
    exact .final (ahead.unexpected_eq .closing)

theorem parenthesized_eq (read : afterBlanks (char '(') text = .ok rest '(') :
    parenthesized inner text = (cut inner rest).andThen fun rest φ =>
      (cut (expect (afterBlanks (char ')')) .closing) rest).andThen fun rest _ => .ok rest φ := by
  rw [parenthesized, delimited, preceded, read]
  rfl

theorem same_parenthesized (follows : Follows inner reader)
    (ahead : Ahead input stop text (⟨.opening, position⟩ :: lexemes)) (other : Parser Formula) :
    Same input stop text (⟨.opening, position⟩ :: lexemes)
      (expect (alt (parenthesized inner) other) .operand text)
      (Grammar.closed (reader lexemes)) := by
  obtain ⟨rest, read, shorter, behind⟩ := (passes_afterBlanks takes_opening).passed ahead rfl
  have settled : (parenthesized inner text).Settled := by
    rw [parenthesized_eq read]
    refine (settled_cut inner rest).andThen fun rest φ => ?_
    exact (settled_cut _ rest).andThen fun _ _ => Outcome.settled_ok _ _
  rw [expect_of_settled (by rwa [alt_of_settled settled]), alt_of_settled settled,
    parenthesized_eq read, closed_eq]
  refine Same.behind ?_ shorter
  exact (follows behind).cut.andThen fun ahead _ => same_closed ahead _

/-- Where no prefix operator comes next, there must be a parenthesis or an atom. -/
theorem operand_of_unapplied {room : Nat} (ahead : Ahead input stop text lexemes)
    (plain : ∀ lexeme ∈ lexemes.head?, prefixOf lexeme.token = none) :
    TextGrammar.operand alphabet (room + 1) text =
      expect (alt (parenthesized (expression (TextGrammar.operand alphabet room))) (atom alphabet))
        .operand text := by
  simp only [TextGrammar.operand, alt, map, pair, passes_prefixOperator.refused ahead plain, refuse,
    Outcome.andThen]

/-- Where no parenthesis comes next either, there must be an atom. -/
theorem operand_of_unopened {room : Nat} (ahead : Ahead input stop text lexemes)
    (plain : ∀ lexeme ∈ lexemes.head?, prefixOf lexeme.token = none ∧ lexeme.token ≠ .opening) :
    TextGrammar.operand alphabet (room + 1) text = expect (atom alphabet) .operand text := by
  have unopened := (passes_afterBlanks takes_opening).refused ahead fun lexeme next =>
    if_neg (plain lexeme next).2
  rw [operand_of_unapplied ahead fun lexeme next => (plain lexeme next).1]
  simp only [expect, alt, parenthesized, delimited, preceded, unopened, refuse, Outcome.andThen]

theorem same_unexpected {room : Nat} (ahead : Ahead input stop text lexemes)
    (plain : ∀ lexeme ∈ lexemes.head?, prefixOf lexeme.token = none ∧ lexeme.token ≠ .opening)
    (failed : atom alphabet text = .recoverable failure) :
    Same input stop text lexemes (TextGrammar.operand alphabet (room + 1) text)
      (.error (.expected .operand lexemes)) := by
  rw [operand_of_unopened ahead plain, expect, failed]
  exact .recoverable (ahead.unexpected_eq .operand)

theorem atom_of_symbol (ahead : Ahead input stop text lexemes)
    (symbol : ∀ lexeme ∈ lexemes.head?, lexeme.token ∈ symbols) :
    atom alphabet text = refuse (skipBlanks text) := by
  have refused : word (skipBlanks text) = refuse (skipBlanks text) := by
    cases ahead with
    | finished next _ => exact next ▸ word_refuse forall_head_nil
    | unrecognized next nothing _ =>
      exact next ▸ word_refuse (not_isLetter_of_startsNothing nothing)
    | token next _ _ _ => exact next ▸ word_of_symbol (symbol _ rfl) _
  rw [atom, refused]
  rfl

/-- A word is ahead, and the atom that is read is the one that it names. -/
theorem atom_of_word (alphabet : Alphabet) {token : Token}
    (ahead : Ahead input stop text (⟨token, position⟩ :: lexemes))
    (isWord : token ∉ symbols) :
    position = offset input (skipBlanks text) ∧ ∃ rest, rest.length < text.length ∧
      Ahead input stop rest lexemes ∧
      atom alphabet text =
        match token with
        | .trueWord => .ok rest .top
        | .falseWord => .ok rest .bot
        | .ident name =>
          match alphabet.index? name with
          | some index => .ok rest (.atom index)
          | none => .final (.unknown (skipBlanks text) name)
        | _ => refuse (skipBlanks text) := by
  cases ahead with
  | @token _ _ rest _ next spellable ends later =>
    refine ⟨rfl, rest, length_lt_of_next spellable next, later, ?_⟩
    rcases mem_symbols_or_isWord spellable with symbol | ⟨spelled, same⟩
    · exact absurd symbol isWord
    · have read := word_append spelled (ends spelled)
      rw [← next] at read
      simp only [atom, read, Outcome.andThen, same]
      cases token <;> rfl

end Operand

/-- An operand of every level. -/
theorem follows_operand (alphabet : Alphabet) (room : Nat) :
    Follows (TextGrammar.operand alphabet room) (Grammar.operand alphabet room) := by
  -- an operand one level deeper has one level less room, whatever opened the level
  induction room with
  | zero =>
    intro input text stop lexemes ahead
    refine .final ?_
    rw [Failure.locate, ahead.offset_eq]
    rfl
  | succ room ih =>
    intro input text stop lexemes ahead
    cases lexemes with
    | nil =>
      exact same_unexpected ahead forall_head_nil (atom_of_symbol ahead forall_head_nil)
    | cons lexeme lexemes =>
      obtain ⟨token, position⟩ := lexeme
      cases token with
      | notWord | nextWord | eventuallyWord | alwaysWord => exact same_applied ih ahead rfl _
      | opening =>
        rw [operand_of_unapplied ahead (forall_head_cons_iff.mpr rfl)]
        exact same_parenthesized (follows_expression ih) ahead (atom alphabet)
      | trueWord | falseWord =>
        obtain ⟨_, rest, shorter, behind, read⟩ := atom_of_word alphabet ahead (by simp [symbols])
        rw [operand_of_unopened ahead (forall_head_cons_iff.mpr ⟨rfl, by simp⟩), expect, read]
        exact (Same.ok_of_ahead behind _).behind shorter
      | ident name =>
        obtain ⟨rfl, rest, shorter, behind, read⟩ := atom_of_word alphabet ahead (by simp [symbols])
        rw [operand_of_unopened ahead (forall_head_cons_iff.mpr ⟨rfl, by simp⟩), expect, read,
          Grammar.operand]
        dsimp only
        cases alphabet.index? name with
        | some index => exact (Same.ok_of_ahead behind _).behind shorter
        | none => exact .final rfl
      | andWord | orWord | untilWord =>
        obtain ⟨_, rest, shorter, behind, read⟩ := atom_of_word alphabet ahead (by simp [symbols])
        exact same_unexpected ahead (forall_head_cons_iff.mpr ⟨rfl, by simp⟩) read
      | arrow | closing =>
        exact same_unexpected ahead (forall_head_cons_iff.mpr ⟨rfl, by simp⟩)
          (atom_of_symbol ahead (forall_head_cons_iff.mpr (by simp [symbols])))

theorem follows_formula (alphabet : Alphabet) :
    Follows (TextGrammar.formula alphabet) (Grammar.formula alphabet) :=
  follows_expression (follows_operand alphabet (Grammar.maxDepth + 1))

end Following

/-- Reading a text needs no tokens, and gives what its tokens give: the same formula, or the same
error at the same place. -/
theorem parseFormula_eq_parseTokens (text : String) (alphabet : Alphabet) :
    parseFormula text alphabet = parseTokens text alphabet := by
  have same := follows_formula alphabet (ahead_ofText text)
  unfold parseFormula parseTokens terminated
  dsimp only
  generalize TextGrammar.formula alphabet text.toList = outcome at same ⊢
  generalize Grammar.formula alphabet (Scan.ofText text).lexemes = answer at same ⊢
  generalize (Scan.ofText text).stop = stop at same ⊢
  cases same with
  | @ok rest later φ ahead _ _ =>
    have passed : blanks rest = .ok (skipBlanks rest) (String.ofList (rest.takeWhile isBlank)) :=
      rfl
    cases ahead with
    | finished next stopped =>
      subst stopped
      simp only [Outcome.andThen, passed, next]
    | unrecognized next nothing stopped =>
      subst stopped
      simp only [Outcome.andThen, passed, next, trailing, token_of_startsNothing nothing, refuse,
        unrecognized, List.headD_cons]
    | @token _ token left _ next spellable ends _ =>
      have located : trailing text.toList (skipBlanks rest) =
          .trailingInput (offset text.toList (skipBlanks rest)) token.text := by
        simp only [trailing, next, token_append spellable ends]
      obtain ⟨c, others, split⟩ : ∃ c others, skipBlanks rest = c :: others :=
        List.exists_cons_of_ne_nil
          (next ▸ List.append_ne_nil_of_left_ne_nil (toList_ne_nil spellable) left)
      rw [split] at located
      simp only [Outcome.andThen, passed, split, located]
  | recoverable located => simp only [Outcome.andThen, located]
  | final located => simp only [Outcome.andThen, located]

end TemporalRewards
