import TemporalRewards.Syntax.TextGrammar

/-! The grammar of formulas as readers of tokens. A text is read in two passes here, first into
tokens and then into a formula, and a reader that fails just fails: one token tells it what to
read, so there is nothing to try again. -/
namespace TemporalRewards.Grammar

/-- Why a formula could not be read, and the tokens left at that point. -/
inductive Failure
  | expected (expectation : Expectation) (rest : List Lexeme)
  | unknown (position : Nat) (name : String)
  | tooDeep (rest : List Lexeme)
deriving DecidableEq, Repr

abbrev Parser := List Lexeme → Except Failure (Formula × List Lexeme)

/-- Reads operands for as long as a separator comes first. Each takes at least
one token, so the number of tokens bounds their number. -/
def operandsAfter (separator : Token) (operand : Parser) :
    Nat → List Lexeme → Except Failure (List Formula × List Lexeme)
  | bound + 1, lexeme :: rest =>
    if lexeme.token = separator then
      match operand rest with
      | .error failure => .error failure
      | .ok (φ, rest) =>
        match operandsAfter separator operand bound rest with
        | .error failure => .error failure
        | .ok (others, rest) => .ok (φ :: others, rest)
    else .ok ([], lexeme :: rest)
  | _, rest => .ok ([], rest)

/-- Reads one or more operands between separators. -/
def chain (separator : Token) (build : Formula → List Formula → Formula) (operand : Parser) : Parser :=
  fun lexemes =>
    match operand lexemes with
    | .error failure => .error failure
    | .ok (first, rest) =>
      match operandsAfter separator operand rest.length rest with
      | .error failure => .error failure
      | .ok (others, rest) => .ok (build first others, rest)

/-- A junction of all operands; one alone stands for itself. -/
def together (kind : Junction) (first : Formula) : List Formula → Formula
  | [] => first
  | others => .junction kind (first :: others)

/-- A binary operator between all operands, associating to the right. -/
def toTheRight (operator : Formula → Formula → Formula) (first : Formula) : List Formula → Formula
  | [] => first
  | second :: others => operator first (toTheRight operator second others)

/-- The four levels of infix operators over an operand. -/
def expression (operand : Parser) : Parser :=
  chain .arrow (toTheRight .implies) <|
  chain .orWord (together .any) <|
  chain .andWord (together .all) <|
  chain .untilWord (toTheRight .strongUntil) operand

/-- Applies a prefix operator to what was read. -/
def applied (operator : Formula → Formula) :
    Except Failure (Formula × List Lexeme) → Except Failure (Formula × List Lexeme)
  | .error failure => .error failure
  | .ok (φ, rest) => .ok (operator φ, rest)

/-- Passes the parenthesis that closes what was read. -/
def closed : Except Failure (Formula × List Lexeme) → Except Failure (Formula × List Lexeme)
  | .error failure => .error failure
  | .ok (φ, rest) =>
    match rest with
    | ⟨.closing, _⟩ :: rest => .ok (φ, rest)
    | rest => .error (.expected .closing rest)

/-- Reads an operand when `room` more levels may be open around it, itself included. -/
def operand (alphabet : Alphabet) : Nat → Parser
  | 0, lexemes => .error (.tooDeep lexemes)
  | _ + 1, [] => .error (.expected .operand [])
  | room + 1, lexeme :: rest =>
    match lexeme.token with
    | .notWord => applied .neg (operand alphabet room rest)
    | .nextWord => applied .next (operand alphabet room rest)
    | .eventuallyWord => applied .eventually (operand alphabet room rest)
    | .alwaysWord => applied .always (operand alphabet room rest)
    | .opening => closed (expression (operand alphabet room) rest)
    | .trueWord => .ok (.top, rest)
    | .falseWord => .ok (.bot, rest)
    | .ident name =>
      match alphabet.index? name with
      | some index => .ok (.atom index, rest)
      | none => .error (.unknown lexeme.position name)
    | _ => .error (.expected .operand (lexeme :: rest))

/-- Reads a formula from the front of a token list. -/
def formula (alphabet : Alphabet) : Parser := expression (operand alphabet (maxDepth + 1))

/-- The byte position of the next token, else of the place where reading ended. -/
def nextPosition (stop : Stop) : List Lexeme → Nat
  | lexeme :: _ => lexeme.position
  | [] =>
    match stop with
    | .finished position => position
    | .unrecognized position _ => position

/-- Turns a failure into an error about the text. -/
def Failure.locate (stop : Stop) : Failure → ParseError
  | expected expectation (lexeme :: _) =>
    .unexpectedToken lexeme.position lexeme.token.text expectation
  | expected expectation [] =>
    match stop with
    | .finished _ => .unexpectedEnd expectation
    | .unrecognized position symbol => .unrecognizedSymbol position symbol
  | unknown position name => .unknownProposition position name
  | tooDeep rest => .nestingTooDeep (nextPosition stop rest) maxDepth

end TemporalRewards.Grammar

namespace TemporalRewards

/-- Reads a formula from all of the tokens of a text. -/
def parseTokens (text : String) (alphabet : Alphabet) : Except ParseError Formula :=
  let scan := Scan.ofText text
  match Grammar.formula alphabet scan.lexemes with
  | .error failure => .error (failure.locate scan.stop)
  | .ok (_, lexeme :: _) => .error (.trailingInput lexeme.position lexeme.token.text)
  | .ok (φ, []) =>
    match scan.stop with
    | .finished _ => .ok φ
    | .unrecognized position symbol => .error (.unrecognizedSymbol position symbol)

end TemporalRewards
