/-! Tokens of formula text. A word starts with an ASCII letter and goes on with
ASCII letters, digits and underscores; nine words are reserved. -/
namespace TemporalRewards

inductive Token
  | ident (name : String)
  | trueWord
  | falseWord
  | notWord
  | andWord
  | orWord
  | arrow
  | untilWord
  | eventuallyWord
  | alwaysWord
  | nextWord
  | opening
  | closing
deriving DecidableEq, Repr

namespace Token

def text : Token → String
  | ident name => name
  | trueWord => "true"
  | falseWord => "false"
  | notWord => "not"
  | andWord => "and"
  | orWord => "or"
  | arrow => "=>"
  | untilWord => "U"
  | eventuallyWord => "F"
  | alwaysWord => "G"
  | nextWord => "X"
  | opening => "("
  | closing => ")"

/-- A reserved word is its own token and any other word an identifier. -/
def ofWord : String → Token
  | "true" => trueWord
  | "false" => falseWord
  | "not" => notWord
  | "and" => andWord
  | "or" => orWord
  | "U" => untilWord
  | "F" => eventuallyWord
  | "G" => alwaysWord
  | "X" => nextWord
  | name => ident name

def isLetter (c : Char) : Bool := c.isAlpha

def isWordChar (c : Char) : Bool := c.isAlphanum || c == '_'

def isBlank (c : Char) : Bool := c == ' ' || c == '\t' || c == '\r' || c == '\n'

end Token

/-- A token and the byte position at which it starts. -/
structure Lexeme where
  token : Token
  position : Nat
deriving DecidableEq, Repr

/-- Where reading a text ended: at its end, or at a symbol that starts no token. -/
inductive Stop
  | finished (position : Nat)
  | unrecognized (position : Nat) (symbol : Char)
deriving DecidableEq, Repr

/-- The tokens up to the place where reading ended. -/
structure Scan where
  lexemes : List Lexeme
  stop : Stop
deriving DecidableEq, Repr

namespace Scan

def cons (lexeme : Lexeme) (scan : Scan) : Scan := ⟨lexeme :: scan.lexemes, scan.stop⟩

theorem length_dropWhile_le (p : Char → Bool) (cs : List Char) :
    (cs.dropWhile p).length ≤ cs.length := (List.dropWhile_sublist p).length_le

/-- Reads tokens from a text that starts at byte `position`. Blanks and the
characters of tokens take one byte each. -/
def scanFrom (position : Nat) : List Char → Scan
  | [] => ⟨[], .finished position⟩
  | '(' :: rest => cons ⟨.opening, position⟩ (scanFrom (position + 1) rest)
  | ')' :: rest => cons ⟨.closing, position⟩ (scanFrom (position + 1) rest)
  | '=' :: '>' :: rest => cons ⟨.arrow, position⟩ (scanFrom (position + 2) rest)
  | c :: rest =>
    if Token.isBlank c then scanFrom (position + 1) rest
    else if Token.isLetter c then
      let tail := rest.takeWhile Token.isWordChar
      cons ⟨.ofWord (String.ofList (c :: tail)), position⟩
        (scanFrom (position + 1 + tail.length) (rest.dropWhile Token.isWordChar))
    else ⟨[], .unrecognized position c⟩
termination_by cs => cs.length
decreasing_by
  all_goals simp only [List.length_cons]
  all_goals first | omega | exact Nat.lt_succ_of_le (length_dropWhile_le _ _)

def ofText (text : String) : Scan := scanFrom 0 text.toList

end Scan

end TemporalRewards
