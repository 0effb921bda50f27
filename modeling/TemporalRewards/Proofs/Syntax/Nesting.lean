import TemporalRewards.Proofs.Syntax.Readers

/-! Tokens that nest too deep. A reader that gives up inside an operand gives up on every
formula around it, as long as what stands before the operand can be read. -/
namespace TemporalRewards.Grammar

/-- The reader gives up on the tokens, whatever follows them. -/
def TooDeep (reader : Parser) (tokens : List Token) : Prop :=
  ∀ used rest, used.map (·.token) = tokens → ∃ left, reader (used ++ rest) = .error (.tooDeep left)

variable {reader : Parser} {more : List Token} {language : List Token → Formula → Prop}
  {separator : Token} {build : Formula → List Formula → Formula} {tokens : List Token}
  {parts : List (List Token × Formula)} {alphabet : Alphabet} {level tighter : Level} {depth room : Nat}

theorem TooDeep.chain (deep : TooDeep reader tokens) :
    TooDeep (Grammar.chain separator build reader) tokens := by
  intro used rest spelled
  obtain ⟨left, failed⟩ := deep used rest spelled
  refine ⟨left, ?_⟩
  rw [Grammar.chain, failed]

/-- What is too deep as an operand is too deep as a formula of any level. -/
theorem TooDeep.atLevel (deep : TooDeep reader tokens) (level : Level) :
    TooDeep (level.reader reader) tokens := by
  have untils : TooDeep (untils reader) tokens := deep.chain
  have conjunctions : TooDeep (conjunctions reader) tokens := untils.chain
  have disjunctions : TooDeep (disjunctions reader) tokens := conjunctions.chain
  cases level with
  | implication => exact disjunctions.chain
  | disjunction => exact disjunctions
  | conjunction => exact conjunctions
  | strongUntil => exact untils
  | operand => exact deep

/-- What is too deep at some level is too deep as an implication. -/
theorem TooDeep.loosen (level : Level) (deep : TooDeep (level.reader reader) tokens) :
    TooDeep (expression reader) tokens := by
  cases level with
  | implication => exact deep
  | disjunction => exact deep.chain
  | conjunction => exact deep.chain.chain
  | strongUntil => exact deep.chain.chain.chain
  | operand => exact deep.chain.chain.chain.chain

section Chains

variable (each : ∀ part ∈ parts, language part.1 part.2 ∨ TooDeep reader part.1)
  (deep : ∃ part ∈ parts, TooDeep reader part.1)

include each deep

/-- Reading operands comes to one that is too deep, at once or later. -/
theorem tooDeep_cases {first : List Token × Formula} {others : List (List Token × Formula)}
    (split : parts = first :: others) : TooDeep reader first.1 ∨
      language first.1 first.2 ∧ (∀ part ∈ others, language part.1 part.2 ∨ TooDeep reader part.1) ∧
        ∃ part ∈ others, TooDeep reader part.1 := by
  subst split
  by_cases failing : TooDeep reader first.1
  · exact .inl failing
  · obtain ⟨readable, each⟩ := List.forall_mem_cons.mp each
    obtain ⟨part, member, deep⟩ := deep
    rcases List.mem_cons.mp member with rfl | later
    · exact absurd deep failing
    · exact .inr ⟨readable.resolve_right failing, each, part, later, deep⟩

theorem operandsAfter_tooDeep (reads : Reads reader more language) (fresh : separator ∉ more)
    {n : Nat} {used : List Lexeme} (rest : List Lexeme)
    (spelled : used.map (·.token) = tokensAfter separator parts) (enough : used.length ≤ n) :
    ∃ left, operandsAfter separator reader n (used ++ rest) = .error (.tooDeep left) := by
  induction parts generalizing used n with
  | nil =>
    obtain ⟨_, none, _⟩ := deep
    contradiction
  | cons part parts ih =>
    obtain ⟨lexeme, tail, rfl, next, split⟩ := List.map_eq_cons_iff.mp spelled
    obtain ⟨used₁, used₂, rfl, same, spelled⟩ := List.map_eq_append_iff.mp split
    rw [List.length_cons, List.length_append] at enough
    obtain ⟨n, rfl⟩ : ∃ b, n = b + 1 := Nat.exists_eq_add_one.mpr (by omega)
    rw [List.cons_append, operandsAfter, if_pos next, List.append_assoc]
    rcases tooDeep_cases each deep rfl with failing | ⟨readable, each, deep⟩
    · obtain ⟨left, failed⟩ := failing used₁ (used₂ ++ rest) same
      exact ⟨left, by rw [failed]⟩
    · have stops : Stops more (used₂ ++ rest) :=
        stops_tokensAfter fresh spelled fun none => by simp [none] at deep
      have answered := reads.complete (same ▸ readable) stops
      obtain ⟨left, failed⟩ := ih each deep spelled (n := n) (by omega)
      exact ⟨left, by simp only [answered, failed]⟩

/-- Of operands between separators, the first that is too deep ends the reading. -/
theorem Reads.tooDeep (reads : Reads reader more language) (fresh : separator ∉ more) :
    TooDeep (Grammar.chain separator build reader)
      ([separator].intercalate (parts.map (·.1))) := by
  obtain ⟨first, others, rfl⟩ : ∃ first others, parts = first :: others :=
    List.exists_cons_of_ne_nil (by rintro rfl; simp at deep)
  intro used rest spelled
  rw [intercalate_eq] at spelled
  obtain ⟨used₁, used₂, rfl, same, spelled⟩ := List.map_eq_append_iff.mp spelled
  rw [Grammar.chain, List.append_assoc]
  rcases tooDeep_cases each deep rfl with failing | ⟨readable, each, deep⟩
  · obtain ⟨left, failed⟩ := failing used₁ (used₂ ++ rest) same
    exact ⟨left, by rw [failed]⟩
  · have stops : Stops more (used₂ ++ rest) :=
      stops_tokensAfter fresh spelled fun none => by simp [none] at deep
    have answered := reads.complete (same ▸ readable) stops
    have enough : used₂.length ≤ (used₂ ++ rest).length := by simp
    obtain ⟨left, failed⟩ := operandsAfter_tooDeep each deep reads fresh rest spelled enough
    exact ⟨left, by simp only [answered, failed]⟩

end Chains

/-- Where no level may be opened any more, every operand is too deep. -/
theorem tooDeep_zero : TooDeep (operand alphabet 0) tokens :=
  fun used rest _ => ⟨used ++ rest, by rw [operand]⟩

theorem TooDeep.applied {token : Token} {operator : Formula → Formula}
    (found : PrefixOperator token operator)
    (deep : ∀ inner, room = inner + 1 → TooDeep (operand alphabet inner) tokens) :
    TooDeep (operand alphabet room) (token :: tokens) := by
  cases room with
  | zero => exact tooDeep_zero
  | succ room =>
    intro used rest spelled
    obtain ⟨lexeme, used, rfl, rfl, same⟩ := List.map_eq_cons_iff.mp spelled
    obtain ⟨left, failed⟩ := deep room rfl used rest same
    refine ⟨left, ?_⟩
    rw [List.cons_append, operand_applied found, failed]
    rfl

theorem TooDeep.enclosed
    (deep : ∀ inner, room = inner + 1 → TooDeep (expression (operand alphabet inner)) tokens) :
    TooDeep (operand alphabet room) (.opening :: (tokens ++ [.closing])) := by
  cases room with
  | zero => exact tooDeep_zero
  | succ room =>
    intro used rest spelled
    obtain ⟨⟨_, position⟩, inside, rfl, rfl, split⟩ := List.map_eq_cons_iff.mp spelled
    obtain ⟨inside, last, rfl, same, _⟩ := List.map_eq_append_iff.mp split
    obtain ⟨left, failed⟩ := deep room rfl inside (last ++ rest) same
    refine ⟨left, ?_⟩
    rw [List.cons_append, List.append_assoc, operand, failed]
    rfl

/-- Operands between infix operators, one of them too deep. -/
theorem tooDeep_operands (levels : room + depth = maxDepth + 1)
    (each : ∀ part ∈ parts,
      Derives alphabet .operand depth part.1 part.2 ∨ TooDeep (operand alphabet room) part.1)
    (deep : ∃ part ∈ parts, TooDeep (operand alphabet room) part.1)
    (between : separator ∈ Level.implication.separators) :
    TooDeep (expression (operand alphabet room)) ([separator].intercalate (parts.map (·.1))) := by
  -- What is read between the separators is the next tighter level.
  have chained (tighter : Level) (fresh : separator ∉ tighter.separators)
      (build : Formula → List Formula → Formula) :
      TooDeep (Grammar.chain separator build (tighter.reader (operand alphabet room)))
        ([separator].intercalate (parts.map (·.1))) := by
    obtain ⟨part, member, failing⟩ := deep
    apply Reads.tooDeep _ ⟨part, member, failing.atLevel tighter⟩
      (reads_level (reads_operand levels) tighter) fresh
    intro part member
    exact (each part member).imp (·.atLevel) (·.atLevel tighter)
  simp only [Level.separators, List.mem_cons, List.not_mem_nil, or_false] at between
  rcases between with rfl | rfl | rfl | rfl
  · exact chained .disjunction (by decide) (toTheRight .implies)
  · exact TooDeep.loosen .disjunction (chained .conjunction (by decide) (together .any))
  · exact TooDeep.loosen .conjunction (chained .strongUntil (by decide) (together .all))
  · exact TooDeep.loosen .strongUntil (chained .operand (by decide) (toTheRight .strongUntil))

end TemporalRewards.Grammar
