import TemporalRewards.Proofs.Syntax.Rounds
import TemporalRewards.Syntax.TextGrammar

/-! What the parsers of words and symbols do with a text. A text goes on with a token, with
something that starts none, or not at all. Words are taken as long as they are, so a parser that
looks for one token takes it if it is the token that the text goes on with, and fails otherwise. -/
namespace TemporalRewards.TextGrammar

open Token

variable {α : Type} {text rest : List Char} {c : Char} {kind other : Char → Bool}

section Heads

variable {P : α → Prop} {x : α}

theorem forall_head_nil : ∀ y ∈ ([] : List α).head?, P y := by
  simp

theorem forall_head_cons_iff {xs : List α} : (∀ y ∈ (x :: xs).head?, P y) ↔ P x := by
  simp

end Heads

section Settled

variable {β : Type} {parser first : Parser α} {outcome : Outcome α} {failure : Failure}

/-- What is settled is not tried again by another parser. -/
def Outcome.Settled (outcome : Outcome α) : Prop := ∀ failure, outcome ≠ .recoverable failure

theorem Outcome.settled_ok (rest : List Char) (value : α) : (Outcome.ok rest value).Settled :=
  fun _ => nofun

theorem settled_cut (parser : Parser α) (text : List Char) : (cut parser text).Settled := by
  intro failure
  unfold cut
  cases parser text <;> exact nofun

theorem Outcome.Settled.andThen {next : List Char → α → Outcome β} (settled : outcome.Settled)
    (go : ∀ rest value, (next rest value).Settled) : (outcome.andThen next).Settled := by
  cases outcome with
  | ok rest value => exact go rest value
  | recoverable failure => exact absurd rfl (settled failure)
  | final failure => exact fun _ => nofun

theorem alt_of_settled (settled : (first text).Settled) (second : Parser α) :
    alt first second text = first text := by
  unfold alt
  split
  · rename_i failed
    exact absurd failed (settled _)
  · rfl

theorem expect_of_settled (settled : (parser text).Settled) (expectation : Expectation) :
    expect parser expectation text = parser text := by
  unfold expect
  split
  · rename_i failed
    exact absurd failed (settled _)
  · rfl

theorem many_of_recoverable (failed : parser text = .recoverable failure) :
    many parser text = .ok text [] := by
  rw [many, failed]

theorem many_of_settled (settled : (parser text).Settled)
    (shorter : ∀ rest first, parser text = .ok rest first → rest.length < text.length) :
    many parser text = (parser text).andThen fun rest first =>
      (many parser rest).andThen fun rest others => .ok rest (first :: others) := by
  rw [many]
  cases read : parser text with
  | ok rest first => exact if_pos (shorter rest first read)
  | recoverable failure => exact absurd read (settled failure)
  | final => rfl

end Settled

section Runs

theorem run_cons (first : kind c = true) (rest : List Char) :
    run kind (c :: rest) =
      .ok (rest.dropWhile kind) (String.ofList (c :: rest.takeWhile kind)) := by
  simp only [run, List.takeWhile_cons_of_pos first, List.dropWhile_cons_of_pos first]

theorem run_refuse (first : ∀ c ∈ text.head?, kind c = false) :
    run kind text = refuse text := by
  cases text with
  | nil => rfl
  | cons c rest => simp only [run, List.takeWhile_cons, first c rfl, Bool.false_eq_true, if_false]

theorem dropWhile_dropWhile (narrow : ∀ c, kind c = true → other c = true) (text : List Char) :
    (text.dropWhile kind).dropWhile other = text.dropWhile other := by
  induction text with
  | nil => rfl
  | cons c rest ih =>
    cases first : kind c with
    | false => rw [List.dropWhile_cons_of_neg (by simp [first])]
    | true =>
      rw [List.dropWhile_cons_of_pos first, ih, List.dropWhile_cons_of_pos (narrow c first)]

end Runs

section Words

theorem tag_of_not_prefix {expected : String} (differs : ¬ expected.toList <+: text) :
    tag expected text = refuse text := by
  rw [tag, if_neg (by rwa [List.isPrefixOf_iff_prefix])]

theorem tag_append (expected : String) (rest : List Char) :
    tag expected (expected.toList ++ rest) = .ok rest expected := by
  rw [tag, if_pos (List.isPrefixOf_iff_prefix.mpr (List.prefix_append ..)), ← String.length_toList,
    List.drop_left]

theorem isWordChar_of_isAlphanum (alphanum : c.isAlphanum = true) : isWordChar c = true := by
  rw [isWordChar, alphanum, Bool.true_or]

/-- One round of what may follow the letters of a word. -/
theorem wordPiece_cons (wordChar : isWordChar c = true) (rest : List Char) :
    ∃ left piece, alt (run Char.isAlphanum) (tag "_") (c :: rest) = .ok left piece ∧
      left.length ≤ rest.length ∧ left.dropWhile isWordChar = rest.dropWhile isWordChar := by
  cases alphanum : c.isAlphanum with
  | true =>
    have read := run_cons alphanum rest
    refine ⟨rest.dropWhile Char.isAlphanum, _, by rw [alt, read], ?_, ?_⟩
    · exact (List.dropWhile_sublist _).length_le
    · exact dropWhile_dropWhile (fun _ => isWordChar_of_isAlphanum) rest
  | false =>
    obtain rfl : c = '_' := by simpa [isWordChar, alphanum] using wordChar
    refine ⟨rest, "_", ?_, Nat.le_refl _, rfl⟩
    have letters : run Char.isAlphanum ('_' :: rest) = refuse ('_' :: rest) :=
      run_refuse (forall_head_cons_iff.mpr alphanum)
    simp only [alt, letters, refuse]
    exact tag_append "_" rest

theorem wordPiece_refuse (ends : EndsWord text) :
    alt (run Char.isAlphanum) (tag "_") text = refuse text := by
  have letters : run Char.isAlphanum text = refuse text := by
    refine run_refuse fun c first => ?_
    have apart := ends c first
    rw [isWordChar, Bool.or_eq_false_iff] at apart
    exact apart.1
  have underscore : ¬ "_".toList <+: text := by
    rintro ⟨rest, rfl⟩
    exact absurd (ends '_' rfl) (by decide)
  simp only [alt, letters, refuse, tag_of_not_prefix underscore]

/-- All that can follow the letters of a word is taken, in whatever pieces. -/
theorem many_wordPiece (text : List Char) : ∃ pieces,
    many (alt (run Char.isAlphanum) (tag "_")) text = .ok (text.dropWhile isWordChar) pieces := by
  -- a piece is a whole run or one underscore, so a round may take any number of characters
  induction size : text.length using Nat.strongRecOn generalizing text with
  | ind n ih =>
    subst size
    by_cases ends : EndsWord text
    · refine ⟨[], ?_⟩
      have nothing : text.dropWhile isWordChar = text := by
        cases text with
        | nil => rfl
        | cons c rest => exact List.dropWhile_cons_of_neg (by simp [ends c rfl])
      rw [many_of_recoverable (wordPiece_refuse ends), nothing]
    · obtain ⟨c, rest, rfl, wordChar⟩ : ∃ c rest, text = c :: rest ∧ isWordChar c = true := by
        cases text with
        | nil => exact absurd endsWord_nil ends
        | cons c rest =>
          refine ⟨c, rest, rfl, ?_⟩
          by_contra apart
          exact ends (endsWord_cons (Bool.eq_false_iff.mpr apart))
      obtain ⟨left, piece, read, shorter, same⟩ := wordPiece_cons wordChar rest
      obtain ⟨pieces, others⟩ := ih left.length (Nat.lt_succ_of_le shorter) left rfl
      refine ⟨piece :: pieces, ?_⟩
      rw [many_of_settled, read, Outcome.andThen, others, same, List.dropWhile_cons_of_pos wordChar]
      · rfl
      · rw [read]
        exact Outcome.settled_ok left piece
      · intro rest first again
        obtain ⟨rfl, _⟩ := Outcome.ok.inj (read.symm.trans again)
        exact Nat.lt_succ_of_le shorter

theorem word_cons (letter : isLetter c = true) (rest : List Char) :
    word (c :: rest) =
      .ok (rest.dropWhile isWordChar) (String.ofList (c :: rest.takeWhile isWordChar)) := by
  obtain ⟨pieces, others⟩ := many_wordPiece (rest.dropWhile isLetter)
  rw [dropWhile_dropWhile (fun _ => isWordChar_of_isLetter)] at others
  have split := congrArg List.length (rest.takeWhile_append_dropWhile (p := isWordChar))
  rw [List.length_append] at split
  have taken : (c :: rest).length - (rest.dropWhile isWordChar).length =
      (c :: rest.takeWhile isWordChar).length := by
    simp only [List.length_cons]
    omega
  have front : c :: rest.takeWhile isWordChar <+: c :: rest :=
    (List.prefix_cons_inj c).mpr (List.takeWhile_prefix isWordChar)
  simp only [word, recognize, pair, run_cons letter, Outcome.andThen, count, map, others, taken,
    ← List.prefix_iff_eq_take.mp front]

theorem word_refuse (first : ∀ c ∈ text.head?, isLetter c = false) : word text = refuse text := by
  simp only [word, recognize, pair, run_refuse first, refuse, Outcome.andThen]

theorem word_append {expected : String} (isWord : IsWord expected) (ends : EndsWord rest) :
    word (expected.toList ++ rest) = .ok rest expected := by
  obtain ⟨c, tail, spelled, letter, others⟩ := isWord
  rw [spelled, List.cons_append, word_cons letter, ends.takeWhile_append others,
    ends.dropWhile_append others, ← spelled, String.ofList_toList]

end Words

section Tokens

variable {found wanted : Token} {result : α} {parser : Parser α}

theorem not_isLetter_of_startsNothing (nothing : StartsNothing text) :
    ∀ c ∈ text.head?, isLetter c = false := by
  intro c first
  obtain ⟨rest, rfl⟩ : ∃ rest, text = c :: rest := List.head?_eq_some_iff.mp first
  by_contra letter
  have isWord : IsWord (String.singleton c) :=
    ⟨c, [], String.toList_singleton c, by simpa using letter, List.forall_mem_nil _⟩
  refine nothing.token _ (spellable_ofWord isWord) ⟨rest, ?_⟩
  rw [text_ofWord, String.toList_singleton]
  rfl

/-- The tokens that are no words. -/
def symbols : List Token := [.opening, .closing, .arrow]

theorem mem_symbols_or_isWord (spellable : found.Spellable) :
    found ∈ symbols ∨ IsWord found.text ∧ ofWord found.text = found := by
  obtain rfl | rfl | rfl | isWord := spellable.symbol_or_word
  · exact .inl (by decide)
  · exact .inl (by decide)
  · exact .inl (by decide)
  · exact .inr isWord

theorem spellable_of_symbol (symbol : found ∈ symbols) : found.Spellable := by
  rintro name rfl
  simp [symbols] at symbol

theorem first_of_symbol (symbol : found ∈ symbols) :
    ∃ c tail, found.text.toList = c :: tail ∧ isLetter c = false ∧ isBlank c = false := by
  simp only [symbols, List.mem_cons, List.not_mem_nil, or_false] at symbol
  obtain rfl | rfl | rfl := symbol
  · exact ⟨'(', [], rfl, rfl, rfl⟩
  · exact ⟨')', [], rfl, rfl, rfl⟩
  · exact ⟨'=', ['>'], rfl, rfl, rfl⟩

theorem eq_of_first : ∀ found ∈ symbols, ∀ wanted ∈ symbols,
    found.text.toList.head? = wanted.text.toList.head? → found = wanted := by
  decide

theorem word_of_symbol (symbol : found ∈ symbols) (rest : List Char) :
    word (found.text.toList ++ rest) = refuse (found.text.toList ++ rest) := by
  obtain ⟨c, tail, spelled, letter, _⟩ := first_of_symbol symbol
  rw [spelled]
  exact word_refuse (forall_head_cons_iff.mpr letter)

/-- Every token has characters, and none begins with a blank. -/
theorem visible_of_spellable (spellable : found.Spellable) :
    ∃ c tail, found.text.toList = c :: tail ∧ isBlank c = false := by
  rcases mem_symbols_or_isWord spellable with symbol | ⟨⟨c, tail, spelled, letter, _⟩, _⟩
  · obtain ⟨c, tail, spelled, _, visible⟩ := first_of_symbol symbol
    exact ⟨c, tail, spelled, visible⟩
  · exact ⟨c, tail, spelled, Bool.eq_false_iff.mpr (not_isBlank_of_isLetter letter)⟩

theorem toList_ne_nil (spellable : found.Spellable) : found.text.toList ≠ [] := by
  obtain ⟨c, tail, spelled, _⟩ := visible_of_spellable spellable
  rw [spelled]
  exact List.cons_ne_nil c tail

theorem startsNothing_nil : StartsNothing [] where
  blank := forall_head_nil
  token _ spellable spelled := toList_ne_nil spellable (List.prefix_nil.mp spelled)

/-- A parser that looks for one token, and answers with a fixed result where it is. -/
structure Takes (parser : Parser α) (wanted : Token) (result : α) : Prop where
  taken {rest : List Char} : (IsWord wanted.text → EndsWord rest) →
    parser (wanted.text.toList ++ rest) = .ok rest result
  refused {found : Token} {rest : List Char} : found ≠ wanted → found.Spellable →
    (IsWord found.text → EndsWord rest) →
      parser (found.text.toList ++ rest) = refuse (found.text.toList ++ rest)
  nothing {text : List Char} : StartsNothing text → parser text = refuse text

theorem Takes.value {β : Type} (takes : Takes parser wanted result) (other : β) :
    Takes (value other parser) wanted other where
  taken ends := by simp only [TextGrammar.value, map, takes.taken ends, Outcome.andThen]
  refused differs spellable ends := by
    simp only [TextGrammar.value, map, takes.refused differs spellable ends, refuse,
      Outcome.andThen]
  nothing none := by
    simp only [TextGrammar.value, map, takes.nothing none, refuse, Outcome.andThen]

theorem takes_word {expected : String} (isWord : IsWord expected) :
    Takes (verify word (· == expected)) (ofWord expected) expected where
  taken ends := by
    rw [text_ofWord] at ends ⊢
    simp only [verify, word_append isWord (ends isWord), Outcome.andThen, beq_self_eq_true, if_true]
  refused {found rest} differs spellable ends := by
    rcases mem_symbols_or_isWord spellable with symbol | ⟨other, same⟩
    · rw [verify, word_of_symbol symbol]
      rfl
    · have apart : ¬ found.text = expected := by
        rintro rfl
        exact differs same.symm
      simp only [verify, word_append other (ends other), Outcome.andThen, beq_iff_eq, apart,
        if_false]
  nothing none := by
    rw [verify, word_refuse (not_isLetter_of_startsNothing none)]
    rfl

/-- A symbol begins no other token, nor does a word begin with one. -/
theorem not_prefix_of_ne (symbol : wanted ∈ symbols) (differs : found ≠ wanted)
    (spellable : found.Spellable) (rest : List Char) :
    ¬ wanted.text.toList <+: found.text.toList ++ rest := by
  intro begins
  obtain ⟨c, tail, spelled, letter, _⟩ := first_of_symbol symbol
  obtain ⟨d, others, split, _⟩ := visible_of_spellable spellable
  rw [spelled, split] at begins
  obtain ⟨rfl, _⟩ := List.cons_prefix_cons.mp begins
  rcases mem_symbols_or_isWord spellable with other | ⟨isWord, _⟩
  · exact differs (eq_of_first found other wanted symbol (by rw [spelled, split]; rfl))
  · rw [isLetter_of_isWord isWord split] at letter
    contradiction

/-- What looks for the characters of a symbol looks for the symbol. -/
theorem takes_symbol (symbol : wanted ∈ symbols)
    (here : ∀ rest, parser (wanted.text.toList ++ rest) = .ok rest result)
    (elsewhere : ∀ text, ¬ wanted.text.toList <+: text → parser text = refuse text) :
    Takes parser wanted result where
  taken _ := here _
  refused differs spellable _ := elsewhere _ (not_prefix_of_ne symbol differs spellable _)
  nothing {text} none := elsewhere text (none.token wanted (spellable_of_symbol symbol))

theorem takes_arrow : Takes (tag "=>") .arrow "=>" :=
  takes_symbol (by decide) (tag_append "=>") fun _ => tag_of_not_prefix

theorem char_of_not_prefix (differs : ¬ [c] <+: text) : char c text = refuse text := by
  cases text with
  | nil => rfl
  | cons first rest =>
    rw [char, if_neg]
    rintro rfl
    exact differs ⟨rest, rfl⟩

theorem takes_opening : Takes (char '(') .opening '(' :=
  takes_symbol (by decide) (fun _ => rfl) fun _ => char_of_not_prefix

theorem takes_closing : Takes (char ')') .closing ')' :=
  takes_symbol (by decide) (fun _ => rfl) fun _ => char_of_not_prefix

theorem token_append (spellable : found.Spellable) (ends : IsWord found.text → EndsWord rest) :
    token (found.text.toList ++ rest) = .ok rest found := by
  obtain rfl | rfl | rfl | ⟨isWord, same⟩ := spellable.symbol_or_word
  · rfl
  · rfl
  · rfl
  · simp only [token, alt, map, word_append isWord (ends isWord), Outcome.andThen, same]

theorem token_of_startsNothing (nothing : StartsNothing text) : token text = refuse text := by
  have letters := word_refuse (not_isLetter_of_startsNothing nothing)
  simp only [token, alt, map, symbol, letters, refuse, Outcome.andThen,
    (takes_arrow.value Token.arrow).nothing nothing,
    (takes_opening.value Token.opening).nothing nothing,
    (takes_closing.value Token.closing).nothing nothing]

end Tokens

end TemporalRewards.TextGrammar
