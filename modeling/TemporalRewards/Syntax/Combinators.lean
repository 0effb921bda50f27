import TemporalRewards.Syntax.Error

/-! Parsers of text. A parser is given the text that is left, and answers with a value and with
what is left behind it, or it fails. A failure is recoverable, so that another parser may be
tried at the same place, until it is cut: a final failure is the failure of all that is read. -/
namespace TemporalRewards.TextGrammar

/-- Why a parser failed, and the text left at that point. -/
inductive Failure
  | expected (rest : List Char) (expectation : Expectation)
  | unknown (rest : List Char) (name : String)
  | tooDeep (rest : List Char)
deriving DecidableEq, Repr

inductive Outcome (α : Type)
  | ok (rest : List Char) (value : α)
  | recoverable (failure : Failure)
  | final (failure : Failure)
deriving DecidableEq, Repr

variable {α β : Type}

/-- Goes on behind what was read. A failure stays what it is. -/
def Outcome.andThen : Outcome α → (List Char → α → Outcome β) → Outcome β
  | ok rest value, next => next rest value
  | recoverable failure, _ => .recoverable failure
  | final failure, _ => .final failure

abbrev Parser (α : Type) := List Char → Outcome α

/-- Fails at the text. What is missing is an operand, unless a rule says otherwise. -/
def refuse : Parser α := fun text => .recoverable (.expected text .operand)

section Characters

/-- One or more characters of a kind, as many as there are. -/
def run (kind : Char → Bool) : Parser String := fun text =>
  match text.takeWhile kind with
  | [] => refuse text
  | c :: cs => .ok (text.dropWhile kind) (String.ofList (c :: cs))

/-- All blanks that come next, or none. -/
def blanks : Parser String := fun text =>
  .ok (text.dropWhile Token.isBlank) (String.ofList (text.takeWhile Token.isBlank))

/-- The characters of a text. -/
def tag (expected : String) : Parser String := fun text =>
  if expected.toList.isPrefixOf text then .ok (text.drop expected.length) expected
  else refuse text

def char (expected : Char) : Parser Char
  | [] => refuse []
  | c :: rest => if c = expected then .ok rest c else refuse (c :: rest)

end Characters

section Values

def map (f : α → β) (parser : Parser α) : Parser β := fun text =>
  (parser text).andThen fun rest value => .ok rest (f value)

def value (result : β) (parser : Parser α) : Parser β := map (fun _ => result) parser

/-- Takes only a value that passes the test. -/
def verify (parser : Parser α) (test : α → Bool) : Parser α := fun text =>
  (parser text).andThen fun rest value => if test value then .ok rest value else refuse text

/-- The characters that a parser takes, in place of its value. -/
def recognize (parser : Parser α) : Parser String := fun text =>
  (parser text).andThen fun rest _ =>
    .ok rest (String.ofList (text.take (text.length - rest.length)))

end Values

section Sequences

def pair (first : Parser α) (second : Parser β) : Parser (α × β) := fun text =>
  (first text).andThen fun rest a => (second rest).andThen fun rest b => .ok rest (a, b)

def preceded (first : Parser α) (second : Parser β) : Parser β := fun text =>
  (first text).andThen fun rest _ => second rest

def terminated (first : Parser α) (second : Parser β) : Parser α := fun text =>
  (first text).andThen fun rest a => (second rest).andThen fun rest _ => .ok rest a

def delimited {γ : Type} (opening : Parser α) (inner : Parser β) (closing : Parser γ) : Parser β :=
  preceded opening (terminated inner closing)

/-- Reads as often as it can. A round that takes nothing fails, for it would never end. -/
def many (parser : Parser α) (text : List Char) : Outcome (List α) :=
  match parser text with
  | .recoverable _ => .ok text []
  | .final failure => .final failure
  | .ok rest first =>
    if rest.length < text.length then
      (many parser rest).andThen fun rest others => .ok rest (first :: others)
    else refuse text
termination_by text.length
decreasing_by assumption

def count (parser : Parser α) : Parser Nat := map List.length (many parser)

end Sequences

section Choices

/-- Tries the second parser where the first one fails and the failure is recoverable. -/
def alt (first second : Parser α) : Parser α := fun text =>
  match first text with
  | .recoverable _ => second text
  | outcome => outcome

/-- Makes every failure final. -/
def cut (parser : Parser α) : Parser α := fun text =>
  match parser text with
  | .recoverable failure => .final failure
  | outcome => outcome

/-- Tells a recoverable failure as a missing piece of the text at which the parser began. -/
def expect (parser : Parser α) (expectation : Expectation) : Parser α := fun text =>
  match parser text with
  | .recoverable _ => .recoverable (.expected text expectation)
  | outcome => outcome

end Choices

end TemporalRewards.TextGrammar
