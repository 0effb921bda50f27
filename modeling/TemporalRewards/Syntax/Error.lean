import TemporalRewards.Syntax.Token

/-! Errors of formula text. Positions are byte positions in the text. -/
namespace TemporalRewards

/-- What a formula could have gone on with. -/
inductive Expectation
  | operand
  | closing
deriving DecidableEq, Repr

def Expectation.text : Expectation → String
  | operand => "a proposition, a constant, a unary operator or '('"
  | closing => "')'"

inductive ParseError
  | unrecognizedSymbol (position : Nat) (symbol : Char)
  | unexpectedToken (position : Nat) (found : String) (expected : Expectation)
  | unexpectedEnd (expected : Expectation)
  | unknownProposition (position : Nat) (name : String)
  | trailingInput (position : Nat) (found : String)
  | nestingTooDeep (position : Nat) (limit : Nat)
deriving DecidableEq, Repr

def ParseError.message : ParseError → String
  | unrecognizedSymbol position symbol =>
    s!"Unrecognized symbol '{symbol}' at position {position}"
  | unexpectedToken position found expected =>
    s!"Unexpected \"{found}\" at position {position}, expected {expected.text}"
  | unexpectedEnd expected => s!"Unexpected end of formula, expected {expected.text}"
  | unknownProposition position name => s!"Unknown proposition \"{name}\" at position {position}"
  | trailingInput position found =>
    s!"Could not parse remaining input starting with \"{found}\" at position {position}"
  | nestingTooDeep position limit => s!"Formula nests deeper than {limit} levels at position {position}"

/-- The tokens of a text, if all of it can be read. -/
def tokenize (text : String) : Except ParseError (List Lexeme) :=
  let scan := Scan.ofText text
  match scan.stop with
  | .finished _ => .ok scan.lexemes
  | .unrecognized position symbol => .error (.unrecognizedSymbol position symbol)

end TemporalRewards
