import TemporalRewards.Proofs.Syntax.Rounds

/-! Where the tokens of a text stand. Every token is spelled in the text at its byte
position, and so is the symbol at which reading ended. A text that was read to its end has as
many bytes as the position there says. -/
namespace TemporalRewards

open Token

/-- The word is spelled in the text at a byte position. -/
def StandsAt (text word : String) (position : Nat) : Prop :=
  ∃ before after, text = before ++ word ++ after ∧ before.utf8ByteSize = position

namespace Scan

/-- What was read of a text, and where it ended, stands in the text. -/
structure Placed (text : String) (scan : Scan) : Prop where
  lexemes : ∀ lexeme ∈ scan.lexemes, StandsAt text lexeme.token.text lexeme.position
  spellable : ∀ lexeme ∈ scan.lexemes, lexeme.token.Spellable
  finished : ∀ position, scan.stop = .finished position → position = text.utf8ByteSize
  unrecognized : ∀ position symbol, scan.stop = .unrecognized position symbol →
    StandsAt text (String.singleton symbol) position

variable {text : String} {cs : List Char} {token : Token} {position : Nat} {scan : Scan}

theorem ofList_passed (before : String) (word rest : List Char) :
    before ++ String.ofList (word ++ rest) =
      before ++ String.ofList word ++ String.ofList rest := by
  rw [String.ofList_append, String.append_assoc]

theorem ofList_spelled (before word : String) (rest : List Char) :
    before ++ String.ofList (word.toList ++ rest) = before ++ word ++ String.ofList rest := by
  rw [ofList_passed, String.ofList_toList]

theorem utf8ByteSize_passed {c : Char} (before : String) (blank : isBlank c = true) :
    (before ++ String.ofList [c]).utf8ByteSize = before.utf8ByteSize + 1 := by
  have narrow : ∀ d ∈ [c], d.utf8Size = 1 :=
    List.forall_mem_singleton.mpr (utf8Size_of_isBlank blank)
  rw [String.utf8ByteSize_append, utf8ByteSize_ofList narrow]
  rfl

theorem Placed.cons (placed : Placed text scan) (spellable : token.Spellable)
    (stands : StandsAt text token.text position) : Placed text (cons ⟨token, position⟩ scan) where
  lexemes := List.forall_mem_cons.mpr ⟨stands, placed.lexemes⟩
  spellable := List.forall_mem_cons.mpr ⟨spellable, placed.spellable⟩
  finished := placed.finished
  unrecognized := placed.unrecognized

theorem Rounds.placed (rounds : Rounds position cs scan) (before : String)
    (start : before.utf8ByteSize = position) : Placed (before ++ String.ofList cs) scan := by
  induction rounds generalizing before with
  | finished =>
    refine ⟨List.forall_mem_nil _, List.forall_mem_nil _, ?_, fun _ _ other => by contradiction⟩
    rintro _ ⟨⟩
    rw [String.ofList_nil, String.append_empty, start]
  | @unrecognized position c rest =>
    refine ⟨List.forall_mem_nil _, List.forall_mem_nil _, fun _ other => by contradiction, ?_⟩
    rintro _ _ ⟨⟩
    exact ⟨before, String.ofList rest, ofList_passed before [c] rest, start⟩
  | @blank position c rest scan blank _ ih =>
    have placed := ih (before ++ String.ofList [c]) (by rw [utf8ByteSize_passed before blank, start])
    rwa [← ofList_passed before [c] rest] at placed
  | @token position token rest scan spellable _ _ ih =>
    have split := ofList_spelled before token.text rest
    have placed := ih (before ++ token.text) (by rw [String.utf8ByteSize_append, start])
    rw [← split] at placed
    exact placed.cons spellable ⟨before, String.ofList rest, split, start⟩

/-- The tokens of a text stand in it. -/
theorem placed_ofText (text : String) : Placed text (ofText text) := by
  have placed := (rounds_scanFrom 0 text.toList).placed "" rfl
  rwa [String.empty_append, String.ofList_toList] at placed

end Scan

end TemporalRewards
