import TemporalRewards.Proofs.Syntax.Places
import TemporalRewards.Proofs.Syntax.Readers

/-! A text is its tokens and blanks. Reading goes in rounds, each of which passes a blank or a
whole token, and what one round passes is gone from what the others read. So the tokens of a
text stand in it one behind the other with nothing but blanks around them, a text that is not
read to its end is read up to the symbol that starts nothing, and tokens that are written down
with blanks between them are read back. -/
namespace TemporalRewards

open Token

/-- No word runs on from what is in front. -/
def StartsWord (front : List Char) : Prop := ∀ c ∈ front.getLast?, isWordChar c = false

/-- What is spelled in the text at a byte position is no part of a longer word. -/
def StandsWhole (text word : String) (position : Nat) : Prop :=
  ∃ before after, text = before ++ word ++ after ∧ before.utf8ByteSize = position ∧
    (IsWord word → StartsWord before.toList ∧ EndsWord after.toList)

/-- The byte is one of those that spell the token. -/
def Lexeme.Covers (lexeme : Lexeme) (byte : Nat) : Prop :=
  lexeme.position ≤ byte ∧ byte < lexeme.position + lexeme.token.text.utf8ByteSize

/-- From a byte on, the text consists of the tokens, whole and in their order, and of blanks. -/
structure Fills (text : String) (start : Nat) (lexemes : List Lexeme) : Prop where
  behind : ∀ lexeme ∈ lexemes, start ≤ lexeme.position
  apart : lexemes.Pairwise fun first second =>
    first.position + first.token.text.utf8ByteSize ≤ second.position
  whole : ∀ lexeme ∈ lexemes, StandsWhole text lexeme.token.text lexeme.position
  spellable : ∀ lexeme ∈ lexemes, lexeme.token.Spellable
  blank : ∀ byte, start ≤ byte → byte < text.utf8ByteSize →
    (∃ lexeme ∈ lexemes, lexeme.Covers byte) ∨
      ∃ c, isBlank c = true ∧ StandsAt text (String.singleton c) byte

/-- The text is read up to the symbol at the position, and the symbol starts nothing. -/
def BreaksOff (text : String) (position : Nat) (symbol : Char) : Prop :=
  ∃ before after, text = before ++ String.singleton symbol ++ after ∧
    before.utf8ByteSize = position ∧ tokenize before = .ok (Scan.ofText text).lexemes ∧
    StartsNothing (symbol :: after.toList)

section Filling

variable {text before : String} {start : Nat} {lexemes : List Lexeme} {token : Token} {c : Char}
  {cs rest : List Char}

theorem fills_nil (text : String) : Fills text text.utf8ByteSize [] where
  behind := List.forall_mem_nil _
  apart := .nil
  whole := List.forall_mem_nil _
  spellable := List.forall_mem_nil _
  blank _ reached inside := absurd inside (Nat.not_lt.mpr reached)

theorem Fills.blank_cons (fills : Fills text (start + 1) lexemes) (blank : isBlank c = true)
    (stands : StandsAt text (String.singleton c) start) : Fills text start lexemes where
  behind lexeme member := Nat.le_of_succ_le (fills.behind lexeme member)
  apart := fills.apart
  whole := fills.whole
  spellable := fills.spellable
  blank byte reached inside := by
    rcases Nat.eq_or_lt_of_le reached with rfl | later
    · exact .inr ⟨c, blank, stands⟩
    · exact fills.blank byte later inside

theorem Fills.cons (fills : Fills text (start + token.text.utf8ByteSize) lexemes)
    (spellable : token.Spellable) (whole : StandsWhole text token.text start) :
    Fills text start (⟨token, start⟩ :: lexemes) where
  behind := by
    refine List.forall_mem_cons.mpr ⟨Nat.le_refl _, fun lexeme member => ?_⟩
    exact Nat.le_of_add_right_le (fills.behind lexeme member)
  apart := .cons fills.behind fills.apart
  whole := List.forall_mem_cons.mpr ⟨whole, fills.whole⟩
  spellable := List.forall_mem_cons.mpr ⟨spellable, fills.spellable⟩
  blank byte reached inside := by
    by_cases covered : byte < start + token.text.utf8ByteSize
    · exact .inl ⟨⟨token, start⟩, List.mem_cons_self, reached, covered⟩
    · refine (fills.blank byte (Nat.not_lt.mp covered) inside).imp_left ?_
      rintro ⟨lexeme, member, covers⟩
      exact ⟨lexeme, List.mem_cons_of_mem _ member, covers⟩

/-- No word stands on both sides of the place between what was passed and what is left. -/
def Parted (front rest : List Char) : Prop := StartsWord front ∨ EndsWord rest

theorem startsWord_append {front word : List Char} (last : word.getLast? = some c)
    (apart : isWordChar c = false) : StartsWord (front ++ word) := by
  intro d same
  rw [List.getLast?_append, last] at same
  obtain rfl := Option.some.inj same
  exact apart

theorem isWordChar_of_isBlank (blank : isBlank c = true) : isWordChar c = false := by
  simp only [isBlank, Bool.or_eq_true, beq_iff_eq] at blank
  rcases blank with ((rfl | rfl) | rfl) | rfl <;> decide

theorem Token.Spellable.parted (spellable : token.Spellable)
    (ends : IsWord token.text → EndsWord rest) (front : List Char) :
    Parted (front ++ token.text.toList) rest := by
  obtain rfl | rfl | rfl | ⟨isWord, _⟩ := spellable.symbol_or_word
  · exact .inl (startsWord_append rfl rfl)
  · exact .inl (startsWord_append rfl rfl)
  · exact .inl (startsWord_append rfl rfl)
  · exact .inr (ends isWord)

theorem Parted.startsWord {word : String} {front : List Char}
    (parted : Parted front (word.toList ++ rest)) (isWord : IsWord word) : StartsWord front := by
  refine parted.resolve_right fun ends => ?_
  obtain ⟨c, tail, spelled, letter, _⟩ := isWord
  have wordChar := isWordChar_of_isLetter letter
  rw [ends c (by rw [spelled]; rfl)] at wordChar
  contradiction

open Scan in
/-- Every round that passes something carries the filling on to its front. -/
theorem Scan.Rounds.fills {position last : Nat} {scan : Scan} (rounds : Rounds position cs scan)
    (stop : scan.stop = .finished last) (before : String) (start : before.utf8ByteSize = position)
    (parted : Parted before.toList cs) :
    Fills (before ++ String.ofList cs) position scan.lexemes := by
  induction rounds generalizing before with
  | finished =>
    subst start
    rw [String.ofList_nil, String.append_empty]
    exact fills_nil before
  | unrecognized => contradiction
  | @blank position c rest scan blank _ ih =>
    subst start
    have split := ofList_passed before [c] rest
    have start := utf8ByteSize_passed before blank
    have parted : Parted (before ++ String.ofList [c]).toList rest := by
      rw [String.toList_append, String.toList_ofList]
      exact .inl (startsWord_append rfl (isWordChar_of_isBlank blank))
    have fills := ih stop (before ++ String.ofList [c]) start parted
    rw [← split] at fills
    exact fills.blank_cons blank ⟨before, String.ofList rest, split, rfl⟩
  | @token position token rest scan spellable ends _ ih =>
    subst start
    have split := ofList_spelled before token.text rest
    have start := String.utf8ByteSize_append (s := before) (t := token.text)
    have ended : Parted (before ++ token.text).toList rest := by
      rw [String.toList_append]
      exact spellable.parted ends before.toList
    have fills := ih stop (before ++ token.text) start ended
    rw [← split] at fills
    refine fills.cons spellable ⟨before, String.ofList rest, split, rfl, fun isWord => ?_⟩
    rw [String.toList_ofList]
    exact ⟨parted.startsWord isWord, ends isWord⟩

end Filling

/-- Without what it broke off at, a text is read to its end. -/
theorem Scan.Rounds.unrecognized_split {position last : Nat} {cs : List Char} {scan : Scan}
    {symbol : Char} (rounds : Rounds position cs scan)
    (stop : scan.stop = .unrecognized last symbol) :
    ∃ front back, cs = front ++ symbol :: back ∧ StartsNothing (symbol :: back) ∧
      scanFrom position front = ⟨scan.lexemes, .finished last⟩ := by
  induction rounds with
  | finished => contradiction
  | unrecognized nothing =>
    obtain ⟨rfl, rfl⟩ := Stop.unrecognized.inj stop
    exact ⟨[], _, rfl, nothing, by rw [scanFrom]⟩
  | @blank position c rest scan blank _ ih =>
    obtain ⟨front, back, rfl, nothing, read⟩ := ih stop
    refine ⟨c :: front, back, rfl, nothing, ?_⟩
    rw [scanFrom_blank blank, read]
  | @token position token rest scan spellable ends _ ih =>
    obtain ⟨front, back, rfl, nothing, read⟩ := ih stop
    refine ⟨token.text.toList ++ front, back, (List.append_assoc ..).symm, nothing, ?_⟩
    rw [scanFrom_token spellable fun isWord => (ends isWord).of_append, read]
    rfl

section Texts

variable {text : String} {lexemes : List Lexeme} {error : ParseError}

theorem tokenize_eq_error_iff : tokenize text = .error error ↔ ∃ lexemes position symbol,
    Scan.ofText text = ⟨lexemes, .unrecognized position symbol⟩ ∧
      error = .unrecognizedSymbol position symbol := by
  rw [tokenize]
  obtain ⟨found, stop⟩ := Scan.ofText text
  cases stop with
  | finished position => simp
  | unrecognized position symbol => simp [eq_comm]

theorem fills_of_tokenize (tokenized : tokenize text = .ok lexemes) : Fills text 0 lexemes := by
  obtain ⟨last, scanned⟩ := tokenize_eq_ok_iff.mp tokenized
  have rounds := Scan.rounds_scanFrom 0 text.toList
  rw [Scan.ofText] at scanned
  rw [scanned] at rounds
  have nothing : StartsWord "".toList := fun _ none => nomatch none
  have fills := rounds.fills rfl "" rfl (.inl nothing)
  rwa [String.empty_append, String.ofList_toList] at fills

theorem Fills.increasing {start : Nat} (fills : Fills text start lexemes) :
    lexemes.Pairwise fun first second => first.position < second.position := by
  refine fills.apart.imp_of_mem fun member _ apart => ?_
  exact Nat.lt_of_lt_of_le
    (Nat.lt_add_of_pos_right (fills.spellable _ member).size_pos) apart

theorem breaksOff_of_tokenize (failed : tokenize text = .error error) :
    ∃ position symbol, error = .unrecognizedSymbol position symbol ∧
      BreaksOff text position symbol := by
  obtain ⟨lexemes, position, symbol, scanned, rfl⟩ := tokenize_eq_error_iff.mp failed
  have stop : (Scan.ofText text).stop = .unrecognized position symbol := by rw [scanned]
  obtain ⟨front, back, split, nothing, read⟩ :=
    (Scan.rounds_scanFrom 0 text.toList).unrecognized_split stop
  have scannedFront : Scan.ofText (String.ofList front) =
      ⟨(Scan.ofText text).lexemes, .finished position⟩ := by
    rw [Scan.ofText, String.toList_ofList, read]
    rfl
  have placed := Scan.placed_ofText (String.ofList front)
  refine ⟨position, symbol, rfl, String.ofList front, String.ofList back, ?_, ?_, ?_, ?_⟩
  · rw [← String.ofList_toList (s := text), split, String.ofList_append]
    exact Scan.ofList_passed (String.ofList front) [symbol] back
  · exact (placed.finished position (by rw [scannedFront])).symm
  · exact tokenize_eq_ok_iff.mpr ⟨position, scannedFront⟩
  · rwa [String.toList_ofList]

theorem tokenize_intercalate {tokens : List Token}
    (spellable : ∀ token ∈ tokens, token.Spellable) :
    ∃ lexemes, tokenize (" ".intercalate (tokens.map Token.text)) = .ok lexemes ∧
      lexemes.map (·.token) = tokens := by
  obtain ⟨lexemes, last, same, read⟩ := Scan.scanFrom_intercalate spellable 0
  exact ⟨lexemes, tokenize_eq_ok_iff.mpr ⟨last, read⟩, same⟩

end Texts

/-- The tokens of a text stand in it in order, whole, and with nothing but blanks around them. A
text that has no tokens has them up to the symbol that is named, which starts none. And tokens
that can be spelled are the tokens of the text that has them with blanks between them. -/
theorem tokenize_lossless :
    (∀ text lexemes, tokenize text = .ok lexemes →
      (lexemes.Pairwise fun first second => first.position < second.position) ∧
        Fills text 0 lexemes) ∧
    (∀ text error, tokenize text = .error error → ∃ position symbol,
      error = .unrecognizedSymbol position symbol ∧ BreaksOff text position symbol) ∧
    ∀ tokens : List Token, (∀ token ∈ tokens, token.Spellable) →
      ∃ lexemes, tokenize (" ".intercalate (tokens.map Token.text)) = .ok lexemes ∧
        lexemes.map (·.token) = tokens := by
  refine ⟨fun text lexemes tokenized => ?_, fun text error failed => ?_, fun tokens spellable => ?_⟩
  · have fills := fills_of_tokenize tokenized
    exact ⟨fills.increasing, fills⟩
  · exact breaksOff_of_tokenize failed
  · exact tokenize_intercalate spellable

/-- A word that only starts as `F` is read whole, an `=` without its `>` is no arrow, and `G` is
kept apart from the name behind it. -/
theorem tokenize_lossless_words :
    Fills "Fx =>\tF x" 0 [⟨.ident "Fx", 0⟩, ⟨.arrow, 3⟩, ⟨.eventuallyWord, 6⟩, ⟨.ident "x", 8⟩] ∧
      BreaksOff "a = b" 2 '=' ∧
      ∃ lexemes, tokenize "G X_1 )" = .ok lexemes ∧
        lexemes.map (·.token) = [.alwaysWord, .ident "X_1", .closing] := by
  obtain ⟨filled, broken, joined⟩ := tokenize_lossless
  refine ⟨?_, ?_, ?_⟩
  · exact (filled "Fx =>\tF x" _ (by decide +kernel)).2
  · obtain ⟨_, _, same, breaksOff⟩ :=
      broken "a = b" (.unrecognizedSymbol 2 '=') (by decide +kernel)
    obtain ⟨rfl, rfl⟩ := ParseError.unrecognizedSymbol.inj same
    exact breaksOff
  · refine joined [.alwaysWord, .ident "X_1", .closing] ?_
    have isWord : IsWord "X_1" := ⟨_, _, rfl, by decide, List.all_eq_true.mp (by decide)⟩
    intro token member name same
    subst same
    obtain rfl : name = "X_1" := by simpa using member
    exact ⟨isWord, by decide⟩

end TemporalRewards
