import Mathlib.Data.List.Basic
import TemporalRewards.Syntax.Error

/-! How characters spell tokens. A piece of text is judged together with what comes
after it, so a word that would run on into the rest is not taken for a whole word. -/
namespace TemporalRewards

namespace Token

/-- The words that are no names. -/
def reserved : List String := ["true", "false", "not", "and", "or", "U", "F", "G", "X"]

/-- A letter, and then word characters. -/
def IsWord (word : String) : Prop :=
  ∃ c tail, word.toList = c :: tail ∧ isLetter c = true ∧ ∀ d ∈ tail, isWordChar d = true

/-- A word that can stand for a proposition. -/
def IsIdentifier (word : String) : Prop := IsWord word ∧ word ∉ reserved

theorem ofWord_of_not_reserved {word : String} (free : word ∉ reserved) :
    ofWord word = .ident word := by
  unfold ofWord
  split
  case h_10 => rfl
  all_goals exact absurd (by decide) free

theorem isWord_of_reserved {word : String} (taken : word ∈ reserved) : IsWord word := by
  simp only [reserved, List.mem_cons, List.not_mem_nil, or_false] at taken
  rcases taken with rfl | rfl | rfl | rfl | rfl | rfl | rfl | rfl | rfl <;>
    exact ⟨_, _, rfl, by decide, List.all_eq_true.mp (by decide)⟩

theorem not_isBlank_of_isLetter {c : Char} (letter : isLetter c = true) : ¬ isBlank c = true := by
  simp only [isBlank, Bool.or_eq_true, beq_iff_eq]
  rintro (((rfl | rfl) | rfl) | rfl) <;> exact absurd letter (by decide)

end Token

open Token

/-- The characters spell the tokens and leave the rest. Every word is as long as it can be. -/
inductive Spells : List Char → List Token → List Char → Prop where
  | done {rest} : Spells rest [] rest
  | blank {c cs tokens rest} : isBlank c = true → Spells cs tokens rest →
      Spells (c :: cs) tokens rest
  | opening {cs tokens rest} : Spells cs tokens rest →
      Spells ('(' :: cs) (.opening :: tokens) rest
  | closing {cs tokens rest} : Spells cs tokens rest →
      Spells (')' :: cs) (.closing :: tokens) rest
  | arrow {cs tokens rest} : Spells cs tokens rest →
      Spells ('=' :: '>' :: cs) (.arrow :: tokens) rest
  | word {c cs tokens rest} : isLetter c = true → Spells (cs.dropWhile isWordChar) tokens rest →
      Spells (c :: cs) (ofWord (String.ofList (c :: cs.takeWhile isWordChar)) :: tokens) rest

namespace Spells

variable {cs middle rest : List Char} {tokens more : List Token}

theorem append (first : Spells cs tokens middle) (last : Spells middle more rest) :
    Spells cs (tokens ++ more) rest := by
  induction first with
  | done => exact last
  | blank isBlank _ ih => exact .blank isBlank (ih last)
  | opening _ ih => exact .opening (ih last)
  | closing _ ih => exact .closing (ih last)
  | arrow _ ih => exact .arrow (ih last)
  | word isLetter _ ih => exact .word isLetter (ih last)

end Spells

/-- No word runs on into the rest. -/
def EndsWord (rest : List Char) : Prop := ∀ c ∈ rest.head?, isWordChar c = false

theorem endsWord_nil : EndsWord [] := fun _ none => nomatch none

theorem endsWord_cons {c : Char} {rest : List Char} (apart : isWordChar c = false) :
    EndsWord (c :: rest) := by
  rintro _ ⟨⟩
  exact apart

theorem EndsWord.takeWhile_append {tail rest : List Char}
    (others : ∀ d ∈ tail, isWordChar d = true) (ends : EndsWord rest) : (tail ++ rest).takeWhile isWordChar = tail := by
  rw [List.takeWhile_append_of_pos others]
  cases rest with
  | nil => simp
  | cons d rest => simp [ends d rfl]

theorem EndsWord.dropWhile_append {tail rest : List Char}
    (others : ∀ d ∈ tail, isWordChar d = true) (ends : EndsWord rest) : (tail ++ rest).dropWhile isWordChar = rest := by
  rw [List.dropWhile_append_of_pos others]
  cases rest with
  | nil => rfl
  | cons d rest => simp [ends d rfl]

theorem spells_word {word : String} {rest : List Char} (isWord : IsWord word)
    (ends : EndsWord rest) : Spells (word.toList ++ rest) [ofWord word] rest := by
  obtain ⟨c, tail, same, letter, others⟩ := isWord
  have left := ends.dropWhile_append others
  have spells : Spells (c :: (tail ++ rest))
      [ofWord (String.ofList (c :: (tail ++ rest).takeWhile isWordChar))] rest :=
    .word letter (by rw [left]; exact .done)
  rw [ends.takeWhile_append others, ← same, String.ofList_toList] at spells
  rwa [same]

/-- A word with a blank behind it. -/
theorem spells_wordBlank {word : String} {cs rest : List Char} {tokens : List Token}
    (isWord : IsWord word) (spells : Spells cs tokens rest) :
    Spells (word.toList ++ ' ' :: cs) (ofWord word :: tokens) rest :=
  (spells_word isWord (endsWord_cons (by decide))).append (.blank (by decide) spells)

namespace Scan

/-- Blanks and letters are none of the other characters that start a token. -/
theorem scanFrom_other {c : Char} {cs : List Char} {position : Nat}
    (other : isBlank c = true ∨ isLetter c = true) :
    scanFrom position (c :: cs) =
      if isBlank c then scanFrom (position + 1) cs
      else
        cons ⟨.ofWord (String.ofList (c :: cs.takeWhile isWordChar)), position⟩
          (scanFrom (position + 1 + (cs.takeWhile isWordChar).length) (cs.dropWhile isWordChar)) := by
  rw [scanFrom]
  · split
    · rfl
    · rename_i visible
      rw [if_pos (other.resolve_left visible)]
  · rintro rfl
    exact absurd other (by decide)
  · rintro rfl
    exact absurd other (by decide)
  · rintro _ rfl
    exact absurd other (by decide)

/-- Tokens in front of what is read after them. -/
def prepend (lexemes : List Lexeme) (scan : Scan) : Scan := ⟨lexemes ++ scan.lexemes, scan.stop⟩

end Scan

/-- What characters spell is read from them first, wherever they stand. -/
theorem Spells.scanFrom {cs rest : List Char} {tokens : List Token} (spells : Spells cs tokens rest)
    (position : Nat) : ∃ lexemes next, lexemes.map (·.token) = tokens ∧
      Scan.scanFrom position cs = (Scan.scanFrom next rest).prepend lexemes := by
  induction spells generalizing position with
  | done => exact ⟨[], position, rfl, rfl⟩
  | blank blank _ ih =>
    obtain ⟨lexemes, next, same, read⟩ := ih (position + 1)
    refine ⟨lexemes, next, same, ?_⟩
    rw [Scan.scanFrom_other (.inl blank), if_pos blank, read]
  | opening _ ih =>
    obtain ⟨lexemes, next, rfl, read⟩ := ih (position + 1)
    refine ⟨⟨.opening, position⟩ :: lexemes, next, rfl, ?_⟩
    rw [Scan.scanFrom, read]
    rfl
  | closing _ ih =>
    obtain ⟨lexemes, next, rfl, read⟩ := ih (position + 1)
    refine ⟨⟨.closing, position⟩ :: lexemes, next, rfl, ?_⟩
    rw [Scan.scanFrom, read]
    rfl
  | arrow _ ih =>
    obtain ⟨lexemes, next, rfl, read⟩ := ih (position + 2)
    refine ⟨⟨.arrow, position⟩ :: lexemes, next, rfl, ?_⟩
    rw [Scan.scanFrom, read]
    rfl
  | @word c cs tokens rest letter _ ih =>
    obtain ⟨lexemes, next, rfl, read⟩ := ih (position + 1 + (cs.takeWhile isWordChar).length)
    refine ⟨⟨_, position⟩ :: lexemes, next, rfl, ?_⟩
    rw [Scan.scanFrom_other (.inr letter), if_neg (not_isBlank_of_isLetter letter), read]
    rfl

/-- A text that is spelled by tokens is split into them. -/
theorem Spells.ofText {text : String} {tokens : List Token} (spells : Spells text.toList tokens []) :
    ∃ lexemes position, lexemes.map (·.token) = tokens ∧
      Scan.ofText text = ⟨lexemes, .finished position⟩ := by
  obtain ⟨lexemes, position, same, read⟩ := spells.scanFrom 0
  refine ⟨lexemes, position, same, read.trans ?_⟩
  rw [Scan.scanFrom, Scan.prepend, List.append_nil]

end TemporalRewards
