import TemporalRewards.Proofs.Syntax.Grammar
import TemporalRewards.Proofs.Syntax.Places
import TemporalRewards.Proofs.Syntax.Words

/-! The tokens ahead of a place in a text, without a pass over the text that makes them. A parser
of a token passes the first of them, with the blanks in front of it, or fails where it stands;
turns of the parser of tokens find them all. -/
namespace TemporalRewards

open Token TextGrammar

/-- The tokens ahead of a place in the input, which is given by the text that is left, and where
the tokens of the input stop. -/
inductive Ahead (input : List Char) (stop : Stop) : List Char → List Lexeme → Prop where
  | finished {text} : skipBlanks text = [] → stop = .finished (offset input []) →
      Ahead input stop text []
  | unrecognized {text c rest} : skipBlanks text = c :: rest → StartsNothing (c :: rest) →
      stop = .unrecognized (offset input (c :: rest)) c → Ahead input stop text []
  | token {text token rest lexemes} : skipBlanks text = token.text.toList ++ rest →
      token.Spellable → (IsWord token.text → EndsWord rest) → Ahead input stop rest lexemes →
      Ahead input stop text (⟨token, offset input (skipBlanks text)⟩ :: lexemes)

section Ahead

variable {input text rest : List Char} {stop : Stop} {lexemes : List Lexeme} {c : Char}

theorem offset_append (before rest : List Char) :
    offset (before ++ rest) rest = (String.ofList before).utf8ByteSize := by
  rw [offset, String.ofList_append, String.utf8ByteSize_append, Nat.add_sub_cancel]

theorem Ahead.blank_cons (ahead : Ahead input stop rest lexemes) (blank : isBlank c = true) :
    Ahead input stop (c :: rest) lexemes := by
  have same : skipBlanks (c :: rest) = skipBlanks rest := List.dropWhile_cons_of_pos blank
  cases ahead with
  | finished none stopped => exact .finished (same.trans none) stopped
  | unrecognized next nothing stopped => exact .unrecognized (same.trans next) nothing stopped
  | token next spellable ends later => exact same ▸ .token (same.trans next) spellable ends later

theorem skipBlanks_of_head (visible : ∀ c ∈ text.head?, isBlank c = false) :
    skipBlanks text = text := by
  cases text with
  | nil => rfl
  | cons c rest => exact List.dropWhile_cons_of_neg (by simp [visible c rfl])

theorem skipBlanks_token {token : Token} (spellable : token.Spellable) (rest : List Char) :
    skipBlanks (token.text.toList ++ rest) = token.text.toList ++ rest := by
  obtain ⟨c, tail, spelled, visible⟩ := visible_of_spellable spellable
  rw [spelled]
  exact skipBlanks_of_head (forall_head_cons_iff.mpr visible)

theorem length_lt_of_next {token : Token} (spellable : token.Spellable)
    (next : skipBlanks text = token.text.toList ++ rest) : rest.length < text.length := by
  have size := congrArg List.length next
  have shorter : (skipBlanks text).length ≤ text.length := (List.dropWhile_sublist _).length_le
  have nonempty := List.length_pos_iff.mpr (toList_ne_nil spellable)
  rw [List.length_append] at size
  omega

open Scan in
theorem Scan.Rounds.ahead {position : Nat} {scan : Scan} (rounds : Rounds position text scan)
    (before : List Char) (start : (String.ofList before).utf8ByteSize = position) :
    Ahead (before ++ text) scan.stop text scan.lexemes := by
  -- `before` is what the rounds have passed: it grows as the text gets shorter
  induction rounds generalizing before with
  | finished =>
    subst start
    refine .finished rfl ?_
    rw [offset_append]
  | @unrecognized position c rest nothing =>
    subst start
    refine .unrecognized (skipBlanks_of_head nothing.blank) nothing ?_
    rw [offset_append]
  | @blank position c rest scan blank _ ih =>
    have passed := ih (before ++ [c])
      (by rw [String.ofList_append, utf8ByteSize_passed _ blank, start])
    rw [List.append_assoc] at passed
    exact passed.blank_cons blank
  | @token position token rest scan spellable ends _ ih =>
    have passed := ih (before ++ token.text.toList)
      (by rw [String.ofList_append, String.utf8ByteSize_append, String.ofList_toList, start])
    rw [List.append_assoc] at passed
    have next := skipBlanks_token spellable rest
    have ahead := Ahead.token next spellable ends passed
    rwa [next, offset_append, start] at ahead

theorem ahead_ofText (text : String) :
    Ahead text.toList (Scan.ofText text).stop text.toList (Scan.ofText text).lexemes :=
  (Scan.rounds_scanFrom 0 text.toList).ahead [] rfl

/-- What stands in place of what is expected is the next token, or else what stopped the text. -/
theorem Ahead.unexpected_eq (ahead : Ahead input stop text lexemes) (expectation : Expectation) :
    unexpected input text expectation =
      (Grammar.Failure.expected expectation lexemes).locate stop := by
  cases ahead with
  | finished none stopped =>
    subst stopped
    simp only [unexpected, none, List.isEmpty_nil, if_true, Grammar.Failure.locate]
  | unrecognized next nothing stopped =>
    subst stopped
    simp only [unexpected, next, List.isEmpty_cons, Bool.false_eq_true, if_false,
      token_of_startsNothing nothing, refuse, TextGrammar.unrecognized, List.headD_cons,
      Grammar.Failure.locate]
  | @token _ token rest _ next spellable ends _ =>
    have visible : (token.text.toList ++ rest).isEmpty = false := by
      rw [List.isEmpty_eq_false_iff]
      exact List.append_ne_nil_of_left_ne_nil (toList_ne_nil spellable) rest
    simp only [unexpected, next, visible, Bool.false_eq_true, if_false,
      token_append spellable ends, Grammar.Failure.locate]

theorem Ahead.offset_eq (ahead : Ahead input stop text lexemes) :
    offset input (skipBlanks text) = Grammar.nextPosition stop lexemes := by
  cases ahead with
  | finished none stopped =>
    subst stopped
    rw [none]
    rfl
  | unrecognized next nothing stopped =>
    subst stopped
    rw [next]
    rfl
  | token => rfl

end Ahead

section Turns

variable {input text rest : List Char} {stop : Stop} {lexemes : List Lexeme} {found : Token}

/-- No turn of the parser of tokens takes nothing. -/
theorem length_lt_of_token (read : token (skipBlanks text) = .ok rest found) :
    rest.length < text.length := by
  have ahead := ahead_ofText (String.ofList text)
  rw [String.toList_ofList] at ahead
  generalize (Scan.ofText (String.ofList text)).lexemes = lexemes at ahead
  cases ahead with
  | finished none _ =>
    rw [none, token_of_startsNothing startsNothing_nil] at read
    contradiction
  | unrecognized next nothing _ =>
    rw [next, token_of_startsNothing nothing] at read
    contradiction
  | token next spellable ends _ =>
    rw [next, token_append spellable ends] at read
    obtain ⟨rfl, _⟩ := Outcome.ok.inj read
    exact length_lt_of_next spellable next

/-- Splits a text into tokens by turns of the parser of tokens. -/
def tokensByTurns (input text : List Char) : Except ParseError (List Lexeme) :=
  if (skipBlanks text).isEmpty then .ok []
  else
    match _ : token (skipBlanks text) with
    | .ok rest found =>
      (tokensByTurns input rest).map (⟨found, offset input (skipBlanks text)⟩ :: ·)
    | _ => .error (unrecognized (offset input (skipBlanks text)) (skipBlanks text))
termination_by text.length
decreasing_by exact length_lt_of_token ‹_›

/-- The tokens of a text, if nothing stopped it before its end. -/
def Stop.answer (lexemes : List Lexeme) : Stop → Except ParseError (List Lexeme)
  | finished _ => .ok lexemes
  | unrecognized position symbol => .error (.unrecognizedSymbol position symbol)

theorem tokensByTurns_of_ok (read : token (skipBlanks text) = .ok rest found) :
    tokensByTurns input text =
      (tokensByTurns input rest).map (⟨found, offset input (skipBlanks text)⟩ :: ·) := by
  rw [tokensByTurns]
  split
  · rename_i nothing
    rw [List.isEmpty_iff.mp nothing, token_of_startsNothing startsNothing_nil] at read
    contradiction
  · split
    · rename_i again
      obtain ⟨rfl, rfl⟩ := Outcome.ok.inj (read.symm.trans again)
      rfl
    · rename_i failed
      exact absurd read (failed rest found)

theorem Ahead.tokensByTurns_eq (ahead : Ahead input stop text lexemes) :
    tokensByTurns input text = stop.answer lexemes := by
  induction ahead with
  | finished none stopped =>
    rw [tokensByTurns, stopped]
    simp only [none, List.isEmpty_nil, if_true, Stop.answer]
  | unrecognized next nothing stopped =>
    have failed := token_of_startsNothing nothing
    rw [← next] at failed
    rw [tokensByTurns, stopped]
    split
    · rename_i none
      rw [next] at none
      contradiction
    · split
      · rename_i read
        exact nomatch failed.symm.trans read
      · rw [next]
        rfl
  | @token text found rest lexemes next spellable ends _ ih =>
    have read := token_append spellable ends
    rw [← next] at read
    rw [tokensByTurns_of_ok read, ih]
    cases stop <;> rfl

/-- The pass over a text finds the tokens that the parser of tokens finds one after the other. -/
theorem tokenize_eq_tokensByTurns (text : String) :
    tokenize text = tokensByTurns text.toList text.toList := by
  rw [(ahead_ofText text).tokensByTurns_eq]
  rfl

end Turns

section Passing

variable {α : Type} {parser first second : Parser α} {results others : Token → Option α}
  {wanted : Token} {result : α}

/-- A parser passes the tokens for which there is a result, each with the blanks in front of it,
and fails at any other place. -/
structure Passes (parser : Parser α) (results : Token → Option α) : Prop where
  passed {input text : List Char} {stop : Stop} {lexeme : Lexeme} {lexemes : List Lexeme}
      {result : α} :
    Ahead input stop text (lexeme :: lexemes) → results lexeme.token = some result →
      ∃ rest, parser text = .ok rest result ∧ rest.length < text.length ∧
        Ahead input stop rest lexemes
  refused {input text : List Char} {stop : Stop} {lexemes : List Lexeme} :
    Ahead input stop text lexemes → (∀ lexeme ∈ lexemes.head?, results lexeme.token = none) →
      parser text = refuse (skipBlanks text)

/-- The results of a parser that passes one token. -/
def only (wanted : Token) (result : α) (found : Token) : Option α :=
  if found = wanted then some result else none

theorem passes_afterBlanks (takes : Takes parser wanted result) :
    Passes (afterBlanks parser) (only wanted result) where
  passed {input text stop lexeme lexemes _} ahead same := by
    obtain ⟨rfl, found⟩ := Option.ite_none_right_eq_some.mp same
    obtain rfl := Option.some.inj found
    cases ahead with
    | @token _ _ rest _ next spellable ends later =>
      have read := (congrArg parser next).trans (takes.taken ends)
      exact ⟨rest, read, length_lt_of_next spellable next, later⟩
  refused {input text stop lexemes} ahead none := by
    cases ahead with
    | finished next _ =>
      rw [next]
      exact (congrArg parser next).trans (takes.nothing startsNothing_nil)
    | unrecognized next nothing _ =>
      rw [next]
      exact (congrArg parser next).trans (takes.nothing nothing)
    | token next spellable ends _ =>
      have differs : _ ≠ wanted := fun same => nomatch (if_pos same).symm.trans (none _ rfl)
      rw [next]
      exact (congrArg parser next).trans (takes.refused differs spellable ends)

theorem Passes.value {β : Type} (passes : Passes parser results) (other : β) :
    Passes (value other parser) (fun found => (results found).map fun _ => other) where
  passed ahead same := by
    obtain ⟨result, found, rfl⟩ := Option.map_eq_some_iff.mp same
    obtain ⟨rest, read, behind⟩ := passes.passed ahead found
    exact ⟨rest, by rw [TextGrammar.value, map, read]; rfl, behind⟩
  refused ahead none := by
    have failed := passes.refused ahead fun lexeme next =>
      Option.map_eq_none_iff.mp (none lexeme next)
    rw [TextGrammar.value, map, failed]
    rfl

theorem Passes.alt (passes : Passes first results) (tries : Passes second others) :
    Passes (alt first second) (fun found => (results found).or (others found)) where
  passed {input text stop lexeme lexemes result} ahead same := by
    cases found : results lexeme.token with
    | some =>
      rw [found, Option.some_or] at same
      obtain ⟨rest, read, behind⟩ := passes.passed ahead (found.trans same)
      exact ⟨rest, by rw [TextGrammar.alt, read], behind⟩
    | none =>
      rw [found, Option.none_or] at same
      obtain ⟨rest, read, behind⟩ := tries.passed ahead same
      have failed := passes.refused ahead (forall_head_cons_iff.mpr found)
      exact ⟨rest, by rw [TextGrammar.alt, failed, refuse]; exact read, behind⟩
  refused ahead none := by
    have none := fun lexeme next => Option.or_eq_none_iff.mp (none lexeme next)
    have failed := passes.refused ahead fun lexeme next => (none lexeme next).1
    rw [TextGrammar.alt, failed, refuse]
    exact tries.refused ahead fun lexeme next => (none lexeme next).2

theorem passes_keyword (expected : String) (taken : expected ∈ reserved) :
    Passes (keyword expected) (only (ofWord expected) expected) :=
  passes_afterBlanks (takes_word (isWord_of_reserved taken))

/-- The tokens that are prefix operators. -/
def prefixOf : Token → Option (Formula → Formula)
  | .notWord => some .neg
  | .nextWord => some .next
  | .eventuallyWord => some .eventually
  | .alwaysWord => some .always
  | _ => none

theorem passes_prefixOperator : Passes prefixOperator prefixOf := by
  have negation := (passes_keyword "not" (by decide)).value Formula.neg
  have next := (passes_keyword "X" (by decide)).value Formula.next
  have eventually := (passes_keyword "F" (by decide)).value Formula.eventually
  have always := (passes_keyword "G" (by decide)).value Formula.always
  have passes := negation.alt (next.alt (eventually.alt always))
  refine (congrArg (Passes prefixOperator) ?_).mp passes
  funext found
  cases found <;> rfl

end Passing

end TemporalRewards
