import TemporalRewards.Proofs.Syntax.Spelling

/-! How a text is read. Reading goes in rounds, each of which passes a blank or a whole token,
until the text ends or goes on with a symbol that starts neither. What a round passes takes as
many bytes as it has characters. No token is one that no text could have. -/
namespace TemporalRewards

open Token

namespace Token

/-- A name is a word that is not reserved. All other tokens can be spelled anyway. -/
def Spellable (token : Token) : Prop := ∀ name, token = .ident name → IsIdentifier name

theorem spellable_ofWord {word : String} (isWord : IsWord word) : (ofWord word).Spellable := by
  intro name same
  by_cases taken : word ∈ reserved
  · simp only [reserved, List.mem_cons, List.not_mem_nil, or_false] at taken
    rcases taken with rfl | rfl | rfl | rfl | rfl | rfl | rfl | rfl | rfl <;> contradiction
  · rw [ofWord_of_not_reserved taken] at same
    obtain rfl := Token.ident.inj same
    exact ⟨isWord, taken⟩

theorem text_ofWord (word : String) : (ofWord word).text = word := by
  unfold ofWord
  split <;> rfl

theorem utf8Size_of_isWordChar {c : Char} (wordChar : isWordChar c = true) : c.utf8Size = 1 := by
  unfold isWordChar Char.isAlphanum Char.isAlpha Char.isUpper Char.isLower Char.isDigit at wordChar
  simp only [Bool.or_eq_true, Bool.and_eq_true, decide_eq_true_eq, beq_iff_eq] at wordChar
  rw [Char.utf8Size_eq_one_iff]
  rcases wordChar with ((⟨_, upper⟩ | ⟨_, lower⟩) | ⟨_, digit⟩) | rfl
  · exact UInt32.le_trans upper (by decide)
  · exact UInt32.le_trans lower (by decide)
  · exact UInt32.le_trans digit (by decide)
  · decide

theorem isWordChar_of_isLetter {c : Char} (letter : isLetter c = true) : isWordChar c = true := by
  simp only [isLetter] at letter
  simp only [isWordChar, Char.isAlphanum, letter, Bool.true_or]

theorem utf8Size_of_isBlank {c : Char} (blank : isBlank c = true) : c.utf8Size = 1 := by
  simp only [isBlank, Bool.or_eq_true, beq_iff_eq] at blank
  rcases blank with ((rfl | rfl) | rfl) | rfl <;> decide

end Token

/-- Characters of one byte each take as many bytes as there are. -/
theorem utf8ByteSize_ofList {word : List Char} (narrow : ∀ c ∈ word, c.utf8Size = 1) :
    (String.ofList word).utf8ByteSize = word.length := by
  induction word with
  | nil => rfl
  | cons c rest ih =>
    obtain ⟨first, others⟩ := List.forall_mem_cons.mp narrow
    rw [String.ofList_cons, String.utf8ByteSize_append, String.utf8ByteSize_singleton, first,
      ih others, List.length_cons, Nat.add_comm]

/-- Neither a blank nor a token is at the start of the characters. -/
structure StartsNothing (cs : List Char) : Prop where
  blank : ∀ c ∈ cs.head?, isBlank c = false
  token : ∀ token : Token, token.Spellable → ¬ token.text.toList <+: cs

section Words

variable {token : Token} {tail front rest : List Char}

/-- What can be spelled is one of the symbols or a word. -/
theorem Token.Spellable.symbol_or_word (spellable : token.Spellable) :
    token = .opening ∨ token = .closing ∨ token = .arrow ∨
      IsWord token.text ∧ ofWord token.text = token := by
  cases token with
  | opening => exact .inl rfl
  | closing => exact .inr (.inl rfl)
  | arrow => exact .inr (.inr (.inl rfl))
  | ident name =>
    obtain ⟨isWord, free⟩ := spellable name rfl
    exact .inr (.inr (.inr ⟨isWord, ofWord_of_not_reserved free⟩))
  | trueWord | falseWord | notWord | andWord | orWord | untilWord | eventuallyWord | alwaysWord
  | nextWord => exact .inr (.inr (.inr ⟨isWord_of_reserved (by decide), rfl⟩))

theorem isLetter_of_isWord {word : String} {c : Char} (isWord : IsWord word)
    (spelled : word.toList = c :: tail) : isLetter c = true := by
  obtain ⟨first, others, same, letter, _⟩ := isWord
  obtain ⟨rfl, _⟩ := List.cons.inj (spelled.symm.trans same)
  exact letter

theorem length_of_isWord {word : String} (isWord : IsWord word) :
    word.toList.length = word.utf8ByteSize := by
  obtain ⟨c, tail, spelled, letter, others⟩ := isWord
  have narrow : ∀ d ∈ word.toList, d.utf8Size = 1 := by
    rw [spelled]
    exact List.forall_mem_cons.mpr ⟨utf8Size_of_isWordChar (isWordChar_of_isLetter letter),
      fun d member => utf8Size_of_isWordChar (others d member)⟩
  have size := utf8ByteSize_ofList narrow
  rw [String.ofList_toList] at size
  exact size.symm

theorem Token.Spellable.size_pos (spellable : token.Spellable) : 0 < token.text.utf8ByteSize := by
  obtain rfl | rfl | rfl | ⟨isWord, _⟩ := spellable.symbol_or_word
  · decide
  · decide
  · decide
  · rw [← length_of_isWord isWord]
    obtain ⟨c, tail, spelled, _⟩ := isWord
    exact spelled ▸ Nat.succ_pos tail.length

theorem endsWord_dropWhile (cs : List Char) : EndsWord (cs.dropWhile isWordChar) := by
  intro c first
  have ends := List.head?_dropWhile_not isWordChar cs
  rwa [Option.mem_def.mp first] at ends

theorem EndsWord.of_append (ends : EndsWord (front ++ rest)) : EndsWord front := by
  intro c first
  exact ends c (List.mem_head?_append_of_mem_head? first)

end Words

namespace Scan

/-- How a text is read: each round passes a blank or a whole token, until the text ends or
goes on with a symbol that starts neither. -/
inductive Rounds : Nat → List Char → Scan → Prop where
  | finished {position} : Rounds position [] ⟨[], .finished position⟩
  | unrecognized {position c rest} : StartsNothing (c :: rest) →
      Rounds position (c :: rest) ⟨[], .unrecognized position c⟩
  | blank {position c rest scan} : isBlank c = true → Rounds (position + 1) rest scan →
      Rounds position (c :: rest) scan
  | token {position token rest scan} : token.Spellable → (IsWord token.text → EndsWord rest) →
      Rounds (position + token.text.utf8ByteSize) rest scan →
      Rounds position (token.text.toList ++ rest) (cons ⟨token, position⟩ scan)

variable {token : Token} {rest : List Char} {position : Nat} {scan : Scan}

theorem scanFrom_blank {c : Char} (blank : isBlank c = true) :
    scanFrom position (c :: rest) = scanFrom (position + 1) rest := by
  rw [scanFrom_other (.inl blank), if_pos blank]

/-- A token is read before what is left, if no word runs on. -/
theorem scanFrom_token (spellable : token.Spellable)
    (ends : IsWord token.text → EndsWord rest) :
    scanFrom position (token.text.toList ++ rest) =
      cons ⟨token, position⟩ (scanFrom (position + token.text.utf8ByteSize) rest) := by
  obtain rfl | rfl | rfl | ⟨isWord, same⟩ := spellable.symbol_or_word
  · exact scanFrom.eq_2 position rest
  · exact scanFrom.eq_3 position rest
  · exact scanFrom.eq_4 position rest
  · have size := length_of_isWord isWord
    have ends := ends isWord
    obtain ⟨c, tail, spelled, letter, others⟩ := isWord
    rw [spelled, List.length_cons] at size
    rw [spelled, List.cons_append, scanFrom_other (.inr letter),
      if_neg (not_isBlank_of_isLetter letter), ends.takeWhile_append others,
      ends.dropWhile_append others, ← spelled, String.ofList_toList, same, ← size,
      Nat.add_assoc, Nat.add_comm 1]

theorem startsNothing_cons {c : Char} (notOpening : c ≠ '(') (notClosing : c ≠ ')')
    (notArrow : ∀ more, c = '=' → rest = '>' :: more → False) (visible : ¬ isBlank c = true)
    (other : ¬ isLetter c = true) : StartsNothing (c :: rest) where
  blank := by
    rintro _ ⟨⟩
    exact Bool.eq_false_iff.mpr visible
  token := by
    rintro token spellable ⟨more, split⟩
    obtain rfl | rfl | rfl | ⟨⟨first, tail, spelled, letter, _⟩, _⟩ := spellable.symbol_or_word
    · exact notOpening (List.cons.inj split).1.symm
    · exact notClosing (List.cons.inj split).1.symm
    · obtain ⟨same, left⟩ := List.cons.inj split
      exact notArrow more same.symm left.symm
    · rw [spelled] at split
      obtain ⟨rfl, _⟩ := List.cons.inj split
      exact other letter

/-- A symbol is no word, so anything may come after it. -/
theorem endsWord_of_symbol {word : String} {c : Char} {tail : List Char}
    (spelled : word.toList = c :: tail) (symbol : isLetter c = false) :
    IsWord word → EndsWord rest := by
  intro isWord
  rw [isLetter_of_isWord isWord spelled] at symbol
  contradiction

theorem rounds_token (token : Token) (spellable : token.Spellable)
    (ends : IsWord token.text → EndsWord rest)
    (rounds : Rounds (position + token.text.utf8ByteSize) rest
      (scanFrom (position + token.text.utf8ByteSize) rest)) :
    Rounds position (token.text.toList ++ rest)
      (scanFrom position (token.text.toList ++ rest)) := by
  rw [scanFrom_token spellable ends]
  exact .token spellable ends rounds

theorem rounds_scanFrom (position : Nat) (cs : List Char) :
    Rounds position cs (scanFrom position cs) := by
  induction position, cs using scanFrom.induct with
  | case1 position =>
    rw [scanFrom]
    exact .finished
  | case2 position rest ih =>
    exact rounds_token .opening (fun _ named => by cases named) (endsWord_of_symbol rfl rfl) ih
  | case3 position rest ih =>
    exact rounds_token .closing (fun _ named => by cases named) (endsWord_of_symbol rfl rfl) ih
  | case4 position rest ih =>
    exact rounds_token .arrow (fun _ named => by cases named) (endsWord_of_symbol rfl rfl) ih
  | case5 position c rest _ _ _ blank ih =>
    rw [scanFrom_blank blank]
    exact .blank blank ih
  | case6 position c rest _ _ _ _ letter tail ih =>
    have isWord : IsWord (String.ofList (c :: tail)) :=
      ⟨c, tail, String.toList_ofList, letter, List.all_eq_true.mp List.all_takeWhile⟩
    have spelled := text_ofWord (String.ofList (c :: tail))
    have size : 1 + tail.length = (ofWord (String.ofList (c :: tail))).text.utf8ByteSize := by
      rw [spelled, ← length_of_isWord isWord, String.toList_ofList, List.length_cons, Nat.add_comm]
    have split : (ofWord (String.ofList (c :: tail))).text.toList ++ rest.dropWhile isWordChar =
        c :: rest := by
      rw [spelled, String.toList_ofList, List.cons_append, List.takeWhile_append_dropWhile]
    rw [Nat.add_assoc, size] at ih
    rw [← split]
    exact rounds_token _ (spellable_ofWord isWord) (fun _ => endsWord_dropWhile rest) ih
  | case7 position c rest notOpening notClosing notArrow visible other =>
    rw [scanFrom, if_neg visible, if_neg other]
    · exact .unrecognized (startsNothing_cons notOpening notClosing notArrow visible other)
    · exact notOpening
    · exact notClosing
    · exact notArrow

/-- Tokens are read back from their texts with blanks between them. -/
theorem scanFrom_intercalate {tokens : List Token}
    (spellable : ∀ token ∈ tokens, token.Spellable) (position : Nat) :
    ∃ lexemes last, lexemes.map (·.token) = tokens ∧
      scanFrom position (" ".intercalate (tokens.map Token.text)).toList =
        ⟨lexemes, .finished last⟩ := by
  induction tokens generalizing position with
  | nil =>
    refine ⟨[], position, rfl, ?_⟩
    rw [List.map_nil, String.intercalate_nil]
    exact scanFrom.eq_1 position
  | cons token tokens ih =>
    obtain ⟨first, others⟩ := List.forall_mem_cons.mp spellable
    cases tokens with
    | nil =>
      refine ⟨[⟨token, position⟩], position + token.text.utf8ByteSize, rfl, ?_⟩
      have read : scanFrom position (token.text.toList ++ []) = _ :=
        scanFrom_token first fun _ => endsWord_nil
      rw [List.append_nil, scanFrom] at read
      rw [List.map_singleton, String.intercalate_singleton]
      exact read
    | cons next tokens =>
      obtain ⟨lexemes, last, same, later⟩ := ih others (position + token.text.utf8ByteSize + 1)
      refine ⟨⟨token, position⟩ :: lexemes, last, by rw [List.map_cons, same], ?_⟩
      have split : (" ".intercalate ((token :: next :: tokens).map Token.text)).toList =
          token.text.toList ++ ' ' :: (" ".intercalate ((next :: tokens).map Token.text)).toList := by
        rw [List.map_cons, List.map_cons, String.intercalate_cons_cons, String.toList_append,
          String.toList_append, List.append_assoc]
        rfl
      rw [split, scanFrom_token first fun _ => endsWord_cons rfl, scanFrom_blank rfl, later]
      rfl

end Scan

end TemporalRewards
