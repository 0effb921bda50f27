import TemporalRewards.Proofs.Syntax.Lexing
import TemporalRewards.Proofs.Syntax.Refusals

/-! What an error about a text points at. Token sequences are judged by the texts that are
read as formulas: a sequence is accepted if a text of just these tokens is read, and viable
if it begins an accepted one. An error names the token behind which the sequence is no longer
viable, or says that the text ended while it still was. -/
namespace TemporalRewards

open Token

/-- Some text of these tokens is read as a formula. -/
def Accepted (alphabet : Alphabet) (tokens : List Token) : Prop :=
  ∃ text lexemes φ, tokenize text = .ok lexemes ∧ lexemes.map (·.token) = tokens ∧
    parseFormula text alphabet = .ok φ

/-- The tokens begin an accepted sequence. -/
def Viable (alphabet : Alphabet) (tokens : List Token) : Prop :=
  ∃ more, Accepted alphabet (tokens ++ more)

/-- The token of the text that stands at the position is the first behind which its tokens are
no longer viable. -/
def Offends (text : String) (alphabet : Alphabet) (position : Nat) (token : Token) : Prop :=
  ∃ before after, (Scan.ofText text).lexemes = before ++ ⟨token, position⟩ :: after ∧
    StandsAt text token.text position ∧ Viable alphabet (before.map (·.token)) ∧
    ¬ Viable alphabet (before.map (·.token) ++ [token])

/-- What comes next behind the tokens in front of `left`: the first of these, or what ended the
reading of the text. -/
def NextAt (text : String) (left : List Lexeme) (position : Nat) : Prop :=
  (∃ next ∈ left.head?, next.position = position ∧ StandsAt text next.token.text position) ∨
  (left = [] ∧ ∃ symbol, tokenize text = .error (.unrecognizedSymbol position symbol) ∧
    StandsAt text (String.singleton symbol) position) ∨
  left = [] ∧ (∃ lexemes, tokenize text = .ok lexemes) ∧ position = text.utf8ByteSize

/-- The position is that of what comes next where, for the first time, more parentheses and
prefix operators stand open than the limit allows. -/
def Overflows (text : String) (alphabet : Alphabet) (position : Nat) : Prop :=
  ∃ before last left, (Scan.ofText text).lexemes = before ++ last :: left ∧
    Viable alphabet (before.map (·.token)) ∧
    Grammar.maxDepth < (Grammar.pending (before.map (·.token) ++ [last.token])).length ∧
    (∀ us vs, before.map (·.token) = us ++ vs → (Grammar.pending us).length ≤ Grammar.maxDepth) ∧
    NextAt text left position

/-- What an error says about the text that it is an error of. -/
def ParseError.Located (text : String) (alphabet : Alphabet) : ParseError → Prop
  | unrecognizedSymbol position symbol =>
    tokenize text = .error (.unrecognizedSymbol position symbol)
  | unexpectedToken position found _ | trailingInput position found =>
    ∃ token, token.text = found ∧ Offends text alphabet position token
  | unknownProposition position name =>
    name ∉ alphabet.names ∧ Offends text alphabet position (.ident name)
  | unexpectedEnd _ => ∃ lexemes, tokenize text = .ok lexemes ∧
    ∃ more, more ≠ [] ∧ Accepted alphabet (lexemes.map (·.token) ++ more)
  | nestingTooDeep position limit =>
    limit = Grammar.maxDepth ∧ Overflows text alphabet position

variable {text : String} {alphabet : Alphabet} {tokens : List Token} {lexemes : List Lexeme}
  {φ : Formula}

section Viable

open Grammar

theorem Accepted.derives (accepted : Accepted alphabet tokens) :
    ∃ φ, Derives alphabet .implication 0 tokens φ := by
  obtain ⟨text, lexemes, φ, tokenized, rfl, parsed⟩ := accepted
  obtain ⟨others, again, derives⟩ := parseFormula_eq_ok_iff.mp parsed
  obtain rfl := Except.ok.inj (tokenized.symm.trans again)
  exact ⟨φ, derives⟩

theorem accepted_of_derives (spellable : ∀ token ∈ tokens, token.Spellable)
    (derives : Derives alphabet .implication 0 tokens φ) : Accepted alphabet tokens := by
  obtain ⟨lexemes, tokenized, same⟩ := tokenize_intercalate spellable
  have parsed := parseFormula_eq_ok_iff.mpr ⟨lexemes, tokenized, same ▸ derives⟩
  exact ⟨_, lexemes, φ, tokenized, same, parsed⟩

theorem Grammar.Begins.accepted
    (begins : Begins (Derives alphabet .implication 0) (lexemes.map (·.token)))
    (spellable : ∀ lexeme ∈ lexemes, lexeme.token.Spellable) :
    ∃ more, Accepted alphabet (lexemes.map (·.token) ++ more) := by
  obtain ⟨more, φ, plain, derives⟩ := begins
  refine ⟨more, accepted_of_derives (List.forall_mem_append.mpr ⟨?_, ?_⟩) derives⟩
  · exact List.forall_mem_map.mpr spellable
  · intro token member
    rcases plain token member with rfl | rfl <;> exact fun _ => nofun

/-- A sequence that nothing makes a formula is not viable. -/
theorem not_viable (never : ∀ others φ, formula alphabet (lexemes ++ others) ≠ .ok (φ, [])) :
    ¬ Viable alphabet (lexemes.map (·.token)) := by
  rintro ⟨more, accepted⟩
  obtain ⟨φ, derives⟩ := accepted.derives
  -- What is missing gets positions, so that the reader can be asked.
  apply never (more.map (⟨·, 0⟩)) φ
  apply formula_eq_ok_iff.mpr
  rwa [List.map_append, List.map_map, Function.comp_def, List.map_id']

theorem Grammar.Refused.never
    (refused : Refused (formula alphabet) (Derives alphabet .implication 0) lexemes)
    (others : List Lexeme) (φ : Formula) : formula alphabet (lexemes ++ others) ≠ .ok (φ, []) := by
  obtain ⟨failure, failed⟩ := refused.always others
  rw [failed]
  exact nofun

end Viable

section Errors

open Grammar

variable {before after : List Lexeme} {lexeme : Lexeme} {position : Nat}

theorem spellable_of_ofText (split : (Scan.ofText text).lexemes = before ++ after) :
    ∀ lexeme ∈ before, lexeme.token.Spellable := by
  intro lexeme member
  apply (Scan.placed_ofText text).spellable
  exact split ▸ List.mem_append_left after member

theorem offends_of_begins (split : (Scan.ofText text).lexemes = before ++ lexeme :: after)
    (begins : Begins (Derives alphabet .implication 0) (before.map (·.token)))
    (never : ∀ others φ, formula alphabet (before ++ [lexeme] ++ others) ≠ .ok (φ, [])) :
    Offends text alphabet lexeme.position lexeme.token := by
  have member : lexeme ∈ (Scan.ofText text).lexemes := by simp [split]
  refine ⟨before, after, split, (Scan.placed_ofText text).lexemes lexeme member,
    begins.accepted (spellable_of_ofText split), ?_⟩
  rw [← List.map_singleton, ← List.map_append]
  exact not_viable never

theorem tokenize_of_finished (stop : (Scan.ofText text).stop = .finished position) :
    tokenize text = .ok (Scan.ofText text).lexemes := by
  simp only [tokenize, stop]

theorem tokenize_of_unrecognized {symbol : Char}
    (stop : (Scan.ofText text).stop = .unrecognized position symbol) :
    tokenize text = .error (.unrecognizedSymbol position symbol) := by
  simp only [tokenize, stop]

theorem nextAt_nextPosition (split : (Scan.ofText text).lexemes = before ++ after) :
    NextAt text after (nextPosition (Scan.ofText text).stop after) := by
  have placed := Scan.placed_ofText text
  cases after with
  | cons next after =>
    refine .inl ⟨next, rfl, rfl, placed.lexemes next ?_⟩
    simp [split]
  | nil =>
    dsimp only [nextPosition]
    split
    · rename_i position stop
      exact .inr (.inr ⟨rfl, ⟨_, tokenize_of_finished stop⟩, placed.finished position stop⟩)
    · rename_i position symbol stop
      have stands := placed.unrecognized position symbol stop
      exact .inr (.inl ⟨rfl, symbol, tokenize_of_unrecognized stop, stands⟩)

theorem overflows_of_refused (split : (Scan.ofText text).lexemes = before ++ after)
    (refused : Refused (formula alphabet) (Derives alphabet .implication 0) before)
    (deep : maxDepth < (pending (before.map (·.token))).length) :
    Overflows text alphabet (nextPosition (Scan.ofText text).stop after) := by
  rcases List.eq_nil_or_concat before with rfl | ⟨before, last, rfl⟩
  · contradiction
  rw [List.concat_eq_append] at split refused deep
  have begins := refused.before rfl
  rw [List.map_append] at deep
  have next := nextAt_nextPosition split
  rw [List.append_assoc] at split
  refine ⟨before, last, after, split, begins.accepted (spellable_of_ofText split), deep, ?_, next⟩
  intro us vs same
  obtain ⟨more, φ, _, derives⟩ := begins
  refine derives.balanced.within [] (Nat.le_refl _) us (vs ++ more) ?_
  rw [same, List.append_assoc]

theorem located_of_error {failure : Failure}
    (failed : formula alphabet (Scan.ofText text).lexemes = .error failure) :
    (failure.locate (Scan.ofText text).stop).Located text alphabet := by
  have offence := blames_formula alphabet failed
  cases offence with
  | ending begins =>
    dsimp only [Failure.locate]
    split
    · rename_i stop
      obtain ⟨more, accepted⟩ := begins.accepted (Scan.placed_ofText text).spellable
      refine ⟨_, tokenize_of_finished stop, more, ?_, accepted⟩
      rintro rfl
      rw [List.append_nil] at accepted
      obtain ⟨φ, derives⟩ := accepted.derives
      exact nomatch failed.symm.trans (formula_eq_ok_iff.mpr derives)
    · rename_i stop
      exact tokenize_of_unrecognized stop
  | @token _ bad _ before split refused =>
    exact ⟨bad.token, rfl, offends_of_begins split (refused.before rfl) refused.never⟩
  | name before split refused absent =>
    refine ⟨?_, offends_of_begins split (refused.before rfl) refused.never⟩
    rw [Alphabet.index?, List.findIdx?_eq_none_iff] at absent
    intro member
    simpa using absent _ member
  | depth before split refused deep =>
    exact ⟨rfl, overflows_of_refused split refused (Nat.lt_of_succ_le (Nat.le_of_eq deep.symm))⟩

/-- What follows a formula and does not carry it on. -/
theorem offends_of_ok
    (answer : formula alphabet (Scan.ofText text).lexemes = .ok (φ, lexeme :: after)) :
    Offends text alphabet lexeme.position lexeme.token := by
  have reads := reads_formula alphabet
  have stops : Stops Level.implication.separators (lexeme :: after) :=
    greedy_formula alphabet answer
  obtain ⟨before, split, derives⟩ := reads.sound answer
  refine offends_of_begins split (.of_language derives) fun others ψ same => ?_
  have answered : formula alphabet (before ++ lexeme :: others) = .ok (φ, lexeme :: others) :=
    reads.complete derives stops
  rw [List.append_assoc, List.singleton_append, answered] at same
  exact nomatch same

end Errors

/-- An error of reading a formula points at the first place of the text that is wrong. A token
that it names is the first behind which the tokens begin nothing that is accepted; only a text
that breaks off ends too early; and levels are counted up to the first that is one too many. -/
theorem parseFormula_located (text : String) (alphabet : Alphabet) {error : ParseError}
    (failed : parseFormula text alphabet = .error error) : error.Located text alphabet := by
  rw [parseFormula_eq_parseTokens] at failed
  dsimp only [parseTokens] at failed
  split at failed
  · rename_i failure unread
    obtain rfl := Except.error.inj failed
    exact located_of_error unread
  · rename_i lexeme after answer
    obtain rfl := Except.error.inj failed
    exact ⟨lexeme.token, rfl, offends_of_ok answer⟩
  · split at failed
    · contradiction
    · rename_i stop
      obtain rfl := Except.error.inj failed
      exact tokenize_of_unrecognized stop

/-- The parenthesis is open where the `b` comes. -/
theorem parseFormula_located_closing :
    parseFormula "(a b)" ⟨["a", "b"]⟩ = .error (.unexpectedToken 3 "b" .closing) ∧
      (ParseError.unexpectedToken 3 "b" .closing).Located "(a b)" ⟨["a", "b"]⟩ := by
  have failed : parseFormula "(a b)" ⟨["a", "b"]⟩ = .error (.unexpectedToken 3 "b" .closing) := by
    decide +kernel
  exact ⟨failed, parseFormula_located "(a b)" ⟨["a", "b"]⟩ failed⟩

/-- A text of parentheses ends where the first of them is one too many. -/
example : parseFormula (String.ofList (List.replicate 65 '(')) ⟨[]⟩ =
    .error (.nestingTooDeep 65 64) := by decide +kernel

end TemporalRewards
