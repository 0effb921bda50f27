import TemporalRewards.Proofs.Syntax.Pending
import TemporalRewards.Proofs.Syntax.Readers

/-! What the reader of formulas refuses, and where. A failure names the first place that no
continuation can repair: what was read up to there begins a formula, and with one token
more, or with one level more than the limit, nothing that follows makes it one. Readers
keep this when they are put together, since what a reader refuses is refused by every
reader that calls it, behind whatever that one has read. -/
namespace TemporalRewards.Grammar

/-- The tokens can be carried on to what a language has, by constants and closing
parentheses alone. -/
def Begins (language : List Token → Formula → Prop) (tokens : List Token) : Prop :=
  ∃ more φ, (∀ token ∈ more, token = .trueWord ∨ token = .closing) ∧ language (tokens ++ more) φ

/-- What was seen is refused whatever follows it, and was not without its last token. -/
structure Refused (reader : Parser) (language : List Token → Formula → Prop)
    (seen : List Lexeme) : Prop where
  before {init last} : seen = init ++ [last] → Begins language (init.map (·.token))
  always others : ∃ failure, reader (seen ++ others) = .error failure

/-- What a failure says about the tokens, for a reader that is called where `stack` stands
open. -/
inductive Offence (alphabet : Alphabet) (reader : Parser)
    (language : List Token → Formula → Prop) (stack : List Opener) (lexemes : List Lexeme) :
    Failure → Prop
  | ending {expectation} : Begins language (lexemes.map (·.token)) →
      Offence alphabet reader language stack lexemes (.expected expectation [])
  | token {expectation bad left} (seen : List Lexeme) : lexemes = seen ++ bad :: left →
      Refused reader language (seen ++ [bad]) →
      Offence alphabet reader language stack lexemes (.expected expectation (bad :: left))
  | name {name position left} (seen : List Lexeme) :
      lexemes = seen ++ ⟨.ident name, position⟩ :: left →
      Refused reader language (seen ++ [⟨.ident name, position⟩]) → alphabet.index? name = none →
      Offence alphabet reader language stack lexemes (.unknown position name)
  | depth {left} (seen : List Lexeme) : lexemes = seen ++ left → Refused reader language seen →
      (pendingFrom stack (seen.map (·.token))).length = maxDepth + 1 →
      Offence alphabet reader language stack lexemes (.tooDeep left)

/-- Every failure of a reader that is called where `stack` stands open. -/
def Blames (alphabet : Alphabet) (reader : Parser) (language : List Token → Formula → Prop)
    (stack : List Opener) : Prop :=
  ∀ ⦃lexemes failure⦄, reader lexemes = .error failure →
    Offence alphabet reader language stack lexemes failure

variable {alphabet : Alphabet} {reader outer : Parser} {more : List Token}
  {language other : List Token → Formula → Prop} {stack below : List Opener}
  {level tighter : Level} {depth : Nat} {separator : Token}
  {build : Formula → List Formula → Formula} {lexemes seen used rest : List Lexeme}
  {lexeme last : Lexeme} {tokens us vs : List Token} {failure : Failure} {φ ψ : Formula}

theorem Begins.of_language (derives : language tokens φ) : Begins language tokens :=
  ⟨[], φ, List.forall_mem_nil _, by rwa [List.append_nil]⟩

/-- What can be carried on can be carried on behind other tokens, if all it comes to can. -/
theorem Begins.behind (begins : Begins language tokens)
    (carried : ∀ {vs ψ}, language vs ψ → Begins other (us ++ vs)) :
    Begins other (us ++ tokens) := by
  obtain ⟨more, ψ, plain, derives⟩ := begins
  obtain ⟨ending, χ, closing, derives⟩ := carried derives
  refine ⟨more ++ ending, χ, List.forall_mem_append.mpr ⟨plain, closing⟩, ?_⟩
  rwa [← List.append_assoc us, List.append_assoc (us ++ tokens)] at derives

theorem Refused.of_last (begins : Begins language (seen.map (·.token)))
    (always : ∀ others, ∃ failure, reader (seen ++ last :: others) = .error failure) :
    Refused reader language (seen ++ [last]) where
  before same := by
    obtain ⟨rfl, _⟩ := List.append_inj' same rfl
    exact begins
  always others := by
    rw [List.append_assoc, List.singleton_append]
    exact always others

section Lifting

variable (front : List Lexeme)
  (carried : ∀ {tokens}, Begins language tokens →
    Begins other (front.map (·.token) ++ tokens))
  (passed : ∀ {lexemes failure}, reader lexemes = .error failure →
    outer (front ++ lexemes) = .error failure)
  (starts : ∀ {init last}, front = init ++ [last] → Begins other (init.map (·.token)))

include carried passed starts

theorem Refused.lift (refused : Refused reader language seen) :
    Refused outer other (front ++ seen) where
  before {init last} same := by
    rcases List.eq_nil_or_concat seen with rfl | ⟨init, last, rfl⟩
    · exact starts (by rwa [List.append_nil] at same)
    · rw [List.concat_eq_append, ← List.append_assoc] at same
      obtain ⟨rfl, _⟩ := List.append_inj' same rfl
      rw [List.map_append]
      exact carried (refused.before List.concat_eq_append)
  always others := by
    obtain ⟨failure, failed⟩ := refused.always others
    exact ⟨failure, by rw [List.append_assoc]; exact passed failed⟩

/-- A failure behind some tokens, for the reader that has read them. -/
theorem Offence.lift (opened : pendingFrom below (front.map (·.token)) = stack)
    (offence : Offence alphabet reader language stack lexemes failure) :
    Offence alphabet outer other below (front ++ lexemes) failure := by
  cases offence with
  | ending begins => exact .ending (by rw [List.map_append]; exact carried begins)
  | token seen split refused =>
    refine .token (front ++ seen) (by rw [split, List.append_assoc]) ?_
    rw [List.append_assoc]
    exact refused.lift front carried passed starts
  | name seen split refused absent =>
    refine .name (front ++ seen) (by rw [split, List.append_assoc]) ?_ absent
    rw [List.append_assoc]
    exact refused.lift front carried passed starts
  | depth seen split refused deep =>
    refine .depth (front ++ seen) (by rw [split, List.append_assoc])
      (refused.lift front carried passed starts) ?_
    rwa [List.map_append, pendingFrom_append, opened]

end Lifting

section Chains

/-- A reader that goes on for as long as it can. -/
def Greedy (reader : Parser) (more : List Token) : Prop :=
  ∀ ⦃lexemes φ rest⦄, reader lexemes = .ok (φ, rest) → Stops more rest

theorem operandsAfter_stops (reads : Reads reader more language) (greedy : Greedy reader more)
    {bound : Nat} {φs : List Formula} (stops : Stops more lexemes) (enough : lexemes.length ≤ bound)
    (answer : operandsAfter separator reader bound lexemes = .ok (φs, rest)) :
    Stops (separator :: more) rest := by
  fun_induction operandsAfter separator reader bound lexemes generalizing φs with
  | case1 | case2 => contradiction
  | case3 bound lexeme lexemes next φ middle first others later answered ih =>
    obtain ⟨rfl, rfl⟩ := Prod.mk.inj (Except.ok.inj answer)
    obtain ⟨used, rfl, _⟩ := reads.sound first
    refine ih (greedy first) ?_ answered
    rw [List.length_cons, List.length_append] at enough
    omega
  | case4 bound lexeme lexemes other =>
    obtain ⟨rfl, rfl⟩ := Prod.mk.inj (Except.ok.inj answer)
    rintro _ ⟨⟩ carries
    rcases List.mem_cons.mp carries with same | carries
    · exact other same
    · exact stops lexeme rfl carries
  | case5 bound lexemes none =>
    obtain ⟨rfl, rfl⟩ := Prod.mk.inj (Except.ok.inj answer)
    cases lexemes with
    | nil =>
      intro _ none
      contradiction
    | cons lexeme lexemes =>
      obtain ⟨bound, rfl⟩ : ∃ b, bound = b + 1 :=
        Nat.exists_eq_add_one.mpr (Nat.lt_of_lt_of_le (Nat.succ_pos _) enough)
      exact (none bound lexeme lexemes rfl rfl).elim

theorem Greedy.chain (greedy : Greedy reader more) (reads : Reads reader more language) :
    Greedy (Grammar.chain separator build reader) (separator :: more) := by
  intro lexemes φ rest answer
  rw [Grammar.chain] at answer
  split at answer
  · contradiction
  rename_i answered
  split at answer
  · contradiction
  rename_i later
  obtain ⟨rfl, rfl⟩ := Prod.mk.inj (Except.ok.inj answer)
  exact operandsAfter_stops reads greedy (greedy answered) (Nat.le_refl _) later

/-- A failure of operands between separators is one of them failing, behind others that
were read. -/
theorem operandsAfter_error (reads : Reads reader more language) {bound : Nat}
    (failed : operandsAfter separator reader bound lexemes = .error failure) :
    ∃ used parts lexeme rest, lexemes = used ++ lexeme :: rest ∧ lexeme.token = separator ∧
      used.map (·.token) = tokensAfter separator parts ∧
      (∀ part ∈ parts, language part.1 part.2) ∧ reader rest = .error failure := by
  fun_induction operandsAfter separator reader bound lexemes with
  | case1 bound lexeme rest next failure' first =>
    obtain rfl := Except.error.inj failed
    exact ⟨[], [], lexeme, rest, rfl, next, rfl, List.forall_mem_nil _, first⟩
  | case2 bound lexeme lexemes next φ middle first failure' later ih =>
    obtain rfl := Except.error.inj failed
    obtain ⟨used₁, rfl, derives⟩ := reads.sound first
    obtain ⟨used₂, parts, failing, rest, rfl, after, spelled, each, failed⟩ := ih later
    refine ⟨lexeme :: (used₁ ++ used₂), (used₁.map (·.token), φ) :: parts, failing, rest, ?_, after,
      ?_, List.forall_mem_cons.mpr ⟨derives, each⟩, failed⟩
    · simp
    · simp [tokensAfter, spelled, next]
  | case3 | case4 | case5 => contradiction

theorem chain_error (reads : Reads reader more language)
    (failed : chain separator build reader lexemes = .error failure) :
    reader lexemes = .error failure ∨ ∃ used lexeme rest φ, lexemes = used ++ lexeme :: rest ∧
      lexeme.token = separator ∧ Separated separator build language (used.map (·.token)) φ ∧
      reader rest = .error failure := by
  rw [chain] at failed
  split at failed
  · rename_i first
    exact .inl (first.trans failed)
  rename_i φ middle answered
  split at failed
  · rename_i later
    obtain rfl := Except.error.inj failed
    obtain ⟨used₁, rfl, derives⟩ := reads.sound answered
    obtain ⟨used₂, parts, lexeme, rest, rfl, after, spelled, each, failing⟩ :=
      operandsAfter_error reads later
    refine .inr ⟨used₁ ++ used₂, lexeme, rest, build φ (parts.map (·.2)), by simp, after, ?_,
      failing⟩
    exact ⟨(used₁.map (·.token), φ), parts, List.forall_mem_cons.mpr ⟨derives, each⟩,
      by rw [List.map_append, spelled], rfl⟩
  · contradiction

theorem chain_of_error (failed : reader lexemes = .error failure) :
    chain separator build reader lexemes = .error failure := by
  rw [chain, failed]

/-- Operands between separators do not carry on what stands in front of them. -/
theorem stops_before {parts : List (List Token × Formula)} (rest : List Lexeme)
    (fresh : separator ∉ more) (next : lexeme.token = separator)
    (spelled : used.map (·.token) = tokensAfter separator parts) :
    Stops more (used ++ lexeme :: rest) := by
  cases parts with
  | nil =>
    obtain rfl := List.map_eq_nil_iff.mp spelled
    rintro _ ⟨⟩
    rwa [next]
  | cons part parts => exact stops_tokensAfter fresh spelled nofun

theorem operandsAfter_of_error (reads : Reads reader more language) (fresh : separator ∉ more)
    {bound : Nat} {parts : List (List Token × Formula)}
    (each : ∀ part ∈ parts, language part.1 part.2)
    (spelled : used.map (·.token) = tokensAfter separator parts) (enough : used.length < bound)
    (next : lexeme.token = separator) (failed : reader rest = .error failure) :
    operandsAfter separator reader bound (used ++ lexeme :: rest) = .error failure := by
  induction parts generalizing used bound with
  | nil =>
    obtain rfl := List.map_eq_nil_iff.mp spelled
    obtain ⟨bound, rfl⟩ : ∃ b, bound = b + 1 := Nat.exists_eq_add_one.mpr (by omega)
    rw [List.nil_append, operandsAfter, if_pos next, failed]
  | cons part parts ih =>
    obtain ⟨derives, each⟩ := List.forall_mem_cons.mp each
    obtain ⟨first, tail, rfl, same, spelled⟩ := List.map_eq_cons_iff.mp spelled
    obtain ⟨used₁, used₂, rfl, inner, spelled⟩ := List.map_eq_append_iff.mp spelled
    have answered := reads.complete (inner ▸ derives)
      (stops_before rest fresh next spelled)
    rw [List.length_cons, List.length_append] at enough
    obtain ⟨bound, rfl⟩ : ∃ b, bound = b + 1 := Nat.exists_eq_add_one.mpr (by omega)
    have later : operandsAfter separator reader bound (used₂ ++ lexeme :: rest) = .error failure :=
      ih each spelled (by omega)
    rw [List.cons_append, operandsAfter, if_pos same, List.append_assoc, answered]
    simp only [later]

/-- What an operand is refused for, all of the operands are. -/
theorem Reads.chain_error_behind (reads : Reads reader more language) (fresh : separator ∉ more)
    (derives : Separated separator build language (used.map (·.token)) φ)
    (next : lexeme.token = separator) (failed : reader rest = .error failure) :
    Grammar.chain separator build reader (used ++ lexeme :: rest) = .error failure := by
  obtain ⟨first, others, each, spelled, rfl⟩ := derives
  obtain ⟨derives, each⟩ := List.forall_mem_cons.mp each
  obtain ⟨used₁, used₂, rfl, inner, spelled⟩ := List.map_eq_append_iff.mp spelled
  have answered := reads.complete (inner ▸ derives) (stops_before rest fresh next spelled)
  have later : operandsAfter separator reader (used₂ ++ lexeme :: rest).length
      (used₂ ++ lexeme :: rest) = .error failure :=
    operandsAfter_of_error reads fresh each spelled (by simp) next failed
  rw [Grammar.chain, List.append_assoc, answered]
  simp only [later]

theorem separated_single (derives : language tokens φ) :
    Separated separator build language tokens (build φ []) :=
  ⟨(tokens, φ), [], List.forall_mem_singleton.mpr derives, (List.append_nil _).symm, rfl⟩

theorem Separated.snoc (derives : Separated separator build language us φ)
    (last : language vs ψ) : ∃ χ, Separated separator build language (us ++ separator :: vs) χ := by
  obtain ⟨first, others, each, rfl, rfl⟩ := derives
  refine ⟨_, first, others ++ [(vs, ψ)], ?_, ?_, rfl⟩
  · rw [← List.cons_append]
    exact List.forall_mem_append.mpr ⟨each, List.forall_mem_singleton.mpr last⟩
  · simp [tokensAfter]

/-- The operands of one level are blamed as they are each by itself. -/
theorem Blames.chain (blames : Blames alphabet reader language stack)
    (reads : Reads reader more language) (fresh : separator ∉ more)
    (stays : pendingAfter stack separator = stack)
    (settles : ∀ {tokens φ}, Separated separator build language tokens φ →
      pendingFrom stack tokens = stack) :
    Blames alphabet (Grammar.chain separator build reader) (Separated separator build language)
      stack := by
  intro lexemes failure failed
  rcases chain_error reads failed with failed | ⟨used, lexeme, rest, φ, rfl, next, derives, failed⟩
  · refine (blames failed).lift [] ?_ chain_of_error (by simp) rfl
    exact fun begins => begins.behind fun derives => .of_language (separated_single derives)
  · have opened : pendingFrom stack ((used ++ [lexeme]).map (·.token)) = stack := by
      rw [List.map_append, pendingFrom_append, settles derives, List.map_singleton, next]
      exact stays
    rw [← List.singleton_append, ← List.append_assoc]
    refine (blames failed).lift (used ++ [lexeme]) ?_ ?_ ?_ opened
    · intro tokens begins
      refine begins.behind fun last => ?_
      obtain ⟨χ, derives⟩ := derives.snoc last
      exact .of_language (by simpa [next] using derives)
    · intro lexemes failure failed
      rw [List.append_assoc]
      exact reads.chain_error_behind fresh derives next failed
    · intro init last same
      obtain ⟨rfl, _⟩ := List.append_inj' same rfl
      exact .of_language derives

end Chains

section Levels

variable {operator : Formula → Formula → Formula} {kind : Junction}

theorem Blames.congr (blames : Blames alphabet reader language stack)
    (same : ∀ {tokens φ}, language tokens φ ↔ other tokens φ) :
    Blames alphabet reader other stack := by
  obtain rfl : language = other := funext fun _ => funext fun _ => propext same
  exact blames

theorem Blames.binary (blames : Blames alphabet reader (Derives alphabet tighter depth) stack)
    (reads : Reads reader more (Derives alphabet tighter depth))
    (binary : Binary level separator operator tighter) (fresh : separator ∉ more)
    (settled : served stack = stack) :
    Blames alphabet (Grammar.chain separator (toTheRight operator) reader)
      (Derives alphabet level depth) stack := by
  refine (blames.chain reads fresh (binary.pendingAfter_eq stack) ?_).congr
    (separated_iff_of_binary binary)
  intro tokens φ derives
  rw [((separated_iff_of_binary binary).mp derives).balanced.settles, settled]

theorem Blames.multiple (blames : Blames alphabet reader (Derives alphabet tighter depth) stack)
    (reads : Reads reader more (Derives alphabet tighter depth))
    (multiple : Multiple level separator kind tighter) (fresh : separator ∉ more)
    (settled : served stack = stack) :
    Blames alphabet (Grammar.chain separator (together kind) reader)
      (Derives alphabet level depth) stack := by
  refine (blames.chain reads fresh (multiple.pendingAfter_eq stack) ?_).congr
    (separated_iff_of_multiple multiple)
  intro tokens φ derives
  rw [((separated_iff_of_multiple multiple).mp derives).balanced.settles, settled]

/-- Over a reader of operands that is blamed rightly, formulas are, where no prefix operator
waits for them. -/
theorem Blames.expression (blames : Blames alphabet reader (Derives alphabet .operand depth) stack)
    (reads : Reads reader [] (Derives alphabet .operand depth)) (settled : served stack = stack) :
    Blames alphabet (Grammar.expression reader) (Derives alphabet .implication depth) stack := by
  have untils := blames.binary (reads_level reads .operand) .strongUntil List.not_mem_nil settled
  have conjunctions := untils.multiple (reads_level reads .strongUntil) .all (by decide) settled
  have disjunctions :=
    conjunctions.multiple (reads_level reads .conjunction) .any (by decide) settled
  exact disjunctions.binary (reads_level reads .disjunction) .implies (by decide) settled

theorem greedy_expression (reads : Reads reader [] (Derives alphabet .operand depth)) :
    Greedy (expression reader) Level.implication.separators := by
  have operands : Greedy reader [] := fun _ _ _ _ => stops_nil
  have untils : Greedy (untils reader) Level.strongUntil.separators :=
    operands.chain (reads_level reads .operand)
  have conjunctions : Greedy (conjunctions reader) Level.conjunction.separators :=
    untils.chain (reads_level reads .strongUntil)
  have disjunctions : Greedy (disjunctions reader) Level.disjunction.separators :=
    conjunctions.chain (reads_level reads .conjunction)
  exact disjunctions.chain (reads_level reads .disjunction)

theorem applied_error {prefixed : Formula → Formula}
    {answer : Except Failure (Formula × List Lexeme)}
    (failed : applied prefixed answer = .error failure) : answer = .error failure := by
  cases answer with
  | error => exact congrArg Except.error (Except.error.inj failed)
  | ok => contradiction

/-- What was read is not closed if it failed, or if something else comes next. -/
theorem closed_error {answer : Except Failure (Formula × List Lexeme)}
    (failed : closed answer = .error failure) : answer = .error failure ∨
      ∃ φ rest, answer = .ok (φ, rest) ∧ failure = .expected .closing rest ∧
        ∀ lexeme ∈ rest.head?, lexeme.token ≠ .closing := by
  cases answer with
  | error => exact .inl (congrArg Except.error (Except.error.inj failed))
  | ok read =>
    obtain ⟨φ, rest⟩ := read
    refine .inr ⟨φ, rest, rfl, ?_⟩
    dsimp only [closed] at failed
    split at failed
    · contradiction
    · rename_i other
      refine ⟨(Except.error.inj failed).symm, ?_⟩
      rintro ⟨_, position⟩ next rfl
      obtain ⟨rest, rfl⟩ := List.head?_eq_some_iff.mp next
      exact other position rest rfl

theorem closed_of_ne {others : List Lexeme} (other : lexeme.token ≠ .closing) :
    closed (.ok (φ, lexeme :: others)) = .error (.expected .closing (lexeme :: others)) := by
  dsimp only [closed]
  split
  · rename_i same
    exact absurd (congrArg Lexeme.token (List.cons.inj same).1) other
  · rfl

end Levels

/-- An operator or a parenthesis in front of what it opens a level for. -/
theorem Offence.opened {opener : Opener}
    (carried : ∀ {vs ψ}, language vs ψ → Begins other (lexeme.token :: vs))
    (passed : ∀ {lexemes failure}, reader lexemes = .error failure →
      outer (lexeme :: lexemes) = .error failure)
    (opens : pendingAfter below lexeme.token = opener :: below) (starts : Begins other [])
    (offence : Offence alphabet reader language (opener :: below) lexemes failure) :
    Offence alphabet outer other below (lexeme :: lexemes) failure := by
  refine offence.lift [lexeme] (fun begins => begins.behind carried) passed ?_ opens
  intro init last same
  rcases List.singleton_eq_append_iff.mp same with ⟨rfl, _⟩ | ⟨_, none⟩
  · exact starts
  · contradiction

section Operands

variable {room : Nat}

theorem begins_operand (low : depth ≤ maxDepth) : Begins (Derives alphabet .operand depth) [] :=
  ⟨[.trueWord], .top, by simp, .top low⟩

theorem offence_applied {prefixed : Formula → Formula}
    (found : PrefixOperator lexeme.token prefixed) (low : depth ≤ maxDepth)
    (inner : Blames alphabet (operand alphabet room) (Derives alphabet .operand (depth + 1))
      (.prefixOperator :: stack))
    (failed : operand alphabet (room + 1) (lexeme :: lexemes) = .error failure) :
    Offence alphabet (operand alphabet (room + 1)) (Derives alphabet .operand depth) stack
      (lexeme :: lexemes) failure := by
  rw [operand_applied found] at failed
  refine (inner (applied_error failed)).opened ?_ ?_ (found.pendingAfter_eq stack)
    (begins_operand low)
  · exact fun derives => .of_language (.applied found derives)
  · intro lexemes failure failed
    rw [operand_applied found, failed]
    rfl

/-- Inside of a parenthesis what is there is blamed, and behind it what does not close it. -/
theorem offence_enclosed {position : Nat} (low : depth ≤ maxDepth)
    (reads : Reads (operand alphabet room) [] (Derives alphabet .operand (depth + 1)))
    (inner : Blames alphabet (operand alphabet room) (Derives alphabet .operand (depth + 1))
      (.parenthesis :: stack))
    (failed : operand alphabet (room + 1) (⟨.opening, position⟩ :: lexemes) = .error failure) :
    Offence alphabet (operand alphabet (room + 1)) (Derives alphabet .operand depth) stack
      (⟨.opening, position⟩ :: lexemes) failure := by
  have closes {vs ψ} (derives : Derives alphabet .implication (depth + 1) vs ψ) :
      Begins (Derives alphabet .operand depth) (.opening :: vs) :=
    ⟨[.closing], ψ, by simp, derives.enclosed⟩
  rcases closed_error failed with failed | ⟨φ, rest, answered, rfl, other⟩
  · refine (inner.expression reads rfl failed).opened closes ?_ rfl (begins_operand low)
    intro lexemes failure failed
    rw [operand, failed]
    rfl
  · have stops := greedy_expression reads answered
    obtain ⟨used, rfl, derives⟩ := (reads_level reads .implication).sound answered
    cases rest with
    | nil => exact .ending (by rw [List.append_nil]; exact closes derives)
    | cons bad left =>
      refine .token (⟨.opening, position⟩ :: used) rfl (.of_last (closes derives) ?_)
      intro others
      have answered : expression (operand alphabet room) (used ++ bad :: others) =
          .ok (φ, bad :: others) :=
        (reads_level reads .implication).complete derives stops
      refine ⟨.expected .closing (bad :: others), ?_⟩
      rw [List.cons_append, operand, answered]
      exact closed_of_ne (other bad rfl)

/-- With `depth` levels open, reading an operand fails at the first place that nothing repairs. -/
theorem blames_operand (levels : room + depth = maxDepth + 1) (opened : stack.length = depth) :
    Blames alphabet (operand alphabet room) (Derives alphabet .operand depth) stack := by
  induction room generalizing depth stack with
  | zero =>
    intro lexemes failure failed
    obtain rfl := Except.error.inj failed
    refine .depth [] rfl ⟨fun none => by simp at none, fun others => ⟨_, rfl⟩⟩ ?_
    rw [List.map_nil, pendingFrom, List.foldl_nil, opened, ← levels, Nat.zero_add]
  | succ room ih =>
    have deeper : room + (depth + 1) = maxDepth + 1 := by omega
    have low : depth ≤ maxDepth := by omega
    have inner (opener : Opener) : Blames alphabet (operand alphabet room)
        (Derives alphabet .operand (depth + 1)) (opener :: stack) :=
      ih deeper (congrArg (· + 1) opened)
    intro lexemes failure failed
    cases lexemes with
    | nil =>
      obtain rfl := Except.error.inj failed
      exact .ending (begins_operand low)
    | cons lexeme lexemes =>
      by_cases found : ∃ prefixed, PrefixOperator lexeme.token prefixed
      · obtain ⟨prefixed, found⟩ := found
        exact offence_applied found low (inner .prefixOperator) failed
      obtain ⟨token, position⟩ := lexeme
      cases token with
      | notWord => exact absurd ⟨_, .not⟩ found
      | nextWord => exact absurd ⟨_, .next⟩ found
      | eventuallyWord => exact absurd ⟨_, .eventually⟩ found
      | alwaysWord => exact absurd ⟨_, .always⟩ found
      | opening => exact offence_enclosed low (reads_operand deeper) (inner .parenthesis) failed
      | trueWord | falseWord => contradiction
      | andWord | orWord | arrow | untilWord | closing =>
        obtain rfl := Except.error.inj failed
        exact .token [] rfl (.of_last (begins_operand low) fun others => ⟨_, rfl⟩)
      | ident name =>
        simp only [operand] at failed
        split at failed
        · contradiction
        · rename_i absent
          obtain rfl := Except.error.inj failed
          refine .name [] rfl (.of_last (begins_operand low) fun others => ?_) absent
          refine ⟨.unknown position name, ?_⟩
          simp only [List.nil_append, operand, absent]

end Operands

theorem greedy_formula (alphabet : Alphabet) :
    Greedy (formula alphabet) Level.implication.separators := by
  have operands : Reads (operand alphabet (maxDepth + 1)) [] (Derives alphabet .operand 0) :=
    reads_operand rfl
  exact greedy_expression operands

/-- Every failure of reading a formula names the first place that nothing can repair. -/
theorem blames_formula (alphabet : Alphabet) :
    Blames alphabet (formula alphabet) (Derives alphabet .implication 0) [] :=
  Blames.expression (blames_operand rfl List.length_nil) (reads_operand rfl) rfl

end TemporalRewards.Grammar
