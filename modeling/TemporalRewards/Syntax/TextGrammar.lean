import TemporalRewards.Alphabet
import TemporalRewards.Formula.Basic
import TemporalRewards.Syntax.Combinators

/-! The grammar of formula text, as parsers of the text itself. From loosest to tightest:
implication, which associates to the right; disjunction and conjunction, which take any number
of operands; until, which associates to the right; then the prefix operators, constants, names
and parentheses. Every prefix operator and every parenthesis opens a level around its operand,
and at most 64 levels may be open. -/
namespace TemporalRewards

def Grammar.maxDepth : Nat := 64

namespace TextGrammar

variable {α : Type}

section Words

def skipBlanks (text : List Char) : List Char := text.dropWhile Token.isBlank

/-- A letter and then letters, digits and underscores. -/
def word : Parser String :=
  recognize (pair (run Token.isLetter) (count (alt (run Char.isAlphanum) (tag "_"))))

def symbol : Parser Token :=
  alt (value .arrow (tag "=>")) (alt (value .opening (char '(')) (value .closing (char ')')))

def token : Parser Token := alt (map Token.ofWord word) symbol

def afterBlanks (parser : Parser α) : Parser α := preceded blanks parser

/-- A whole word, so that `F` is not found at the start of `Fx`. -/
def keyword (expected : String) : Parser String := afterBlanks (verify word (· == expected))

end Words

section Rules

/-- A junction of all operands; one alone stands for itself. -/
def junction (kind : Junction) (first : Formula) (others : List Formula) : Formula :=
  if others.isEmpty then first else .junction kind (first :: others)

/-- A binary operator between all operands, associating to the right. -/
def foldRight (operator : Formula → Formula → Formula) (first : Formula) (others : List Formula) :
    Formula :=
  match others.getLast? with
  | some last => operator first (others.dropLast.foldr operator last)
  | none => first

/-- Operands between separators. Behind a separator there must be an operand. -/
def separated (separator : Parser α) (build : Formula → List Formula → Formula)
    (operand : Parser Formula) : Parser Formula :=
  map (fun operands => build operands.1 operands.2)
    (pair operand (many (preceded separator (cut operand))))

/-- The four levels of infix operators over an operand. -/
def expression (operand : Parser Formula) : Parser Formula :=
  separated (afterBlanks (tag "=>")) (foldRight .implies) <|
  separated (keyword "or") (junction .any) <|
  separated (keyword "and") (junction .all) <|
  separated (keyword "U") (foldRight .strongUntil) operand

def prefixOperator : Parser (Formula → Formula) :=
  alt (value .neg (keyword "not")) <|
  alt (value .next (keyword "X")) <|
  alt (value .eventually (keyword "F")) (value .always (keyword "G"))

/-- A constant or a name of the alphabet. -/
def atom (alphabet : Alphabet) : Parser Formula := fun text =>
  let start := skipBlanks text
  (word start).andThen fun rest word =>
    match Token.ofWord word with
    | .trueWord => .ok rest .top
    | .falseWord => .ok rest .bot
    | .ident _ =>
      match alphabet.index? word with
      | some index => .ok rest (.atom index)
      | none => .final (.unknown start word)
    | _ => refuse start

def parenthesized (inner : Parser Formula) : Parser Formula :=
  delimited (afterBlanks (char '(')) (cut inner) (cut (expect (afterBlanks (char ')')) .closing))

/-- An operand when `room` more levels may be open around it, itself included. -/
def operand (alphabet : Alphabet) : Nat → Parser Formula
  | 0 => fun text => .final (.tooDeep text)
  | room + 1 =>
    alt
      (map (fun applied => applied.1 applied.2)
        (pair prefixOperator (cut (operand alphabet room))))
      (expect (alt (parenthesized (expression (operand alphabet room))) (atom alphabet)) .operand)

def formula (alphabet : Alphabet) : Parser Formula :=
  expression (operand alphabet (Grammar.maxDepth + 1))

end Rules

section Positions

/-- The byte position in a text at which the rest of it begins. -/
def offset (input rest : List Char) : Nat :=
  (String.ofList input).utf8ByteSize - (String.ofList rest).utf8ByteSize

def unrecognized (position : Nat) (rest : List Char) : ParseError :=
  .unrecognizedSymbol position (rest.headD (Char.ofNat 0))

/-- What comes next in place of what is expected. -/
def unexpected (input rest : List Char) (expectation : Expectation) : ParseError :=
  let rest := skipBlanks rest
  let position := offset input rest
  if rest.isEmpty then .unexpectedEnd expectation
  else
    match token rest with
    | .ok _ token => .unexpectedToken position token.text expectation
    | _ => unrecognized position rest

/-- What comes behind a whole formula. -/
def trailing (input rest : List Char) : ParseError :=
  let position := offset input rest
  match token rest with
  | .ok _ token => .trailingInput position token.text
  | _ => unrecognized position rest

/-- Turns a failure into an error about the whole text. -/
def Failure.locate (input : List Char) : Failure → ParseError
  | expected rest expectation => unexpected input rest expectation
  | unknown rest name => .unknownProposition (offset input rest) name
  | tooDeep rest => .nestingTooDeep (offset input (skipBlanks rest)) Grammar.maxDepth

end Positions

end TextGrammar

/-- Reads a formula that takes up the whole text. -/
@[irreducible]
def parseFormula (text : String) (alphabet : Alphabet) : Except ParseError Formula :=
  let input := text.toList
  match TextGrammar.terminated (TextGrammar.formula alphabet) TextGrammar.blanks input with
  | .ok [] φ => .ok φ
  | .ok rest _ => .error (TextGrammar.trailing input rest)
  | .recoverable failure => .error (failure.locate input)
  | .final failure => .error (failure.locate input)

end TemporalRewards
