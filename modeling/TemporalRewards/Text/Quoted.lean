import TemporalRewards.Text.Unprintable

/-! Quoted text, as structural dumps show it: quotes and backslashes are escaped,
control characters have short or hexadecimal escapes, and so have characters that
cannot be shown on their own. -/
namespace TemporalRewards.Text

/-- The hexadecimal escape of a character: its code point between braces. -/
def codePoint (c : Char) : List Char := "\\u\x7b".toList ++ (Nat.toDigits 16 c.toNat ++ ['\x7d'])

def escapeChar (c : Char) : List Char :=
  if c = '"' then ['\\', '"']
  else if c = '\\' then ['\\', '\\']
  else if c = '\n' then ['\\', 'n']
  else if c = '\r' then ['\\', 'r']
  else if c = '\t' then ['\\', 't']
  else if c.toNat = 0 then ['\\', '0']
  else if c.toNat < 0x20 ∨ c.toNat = 0x7f then codePoint c
  else if c.toNat < 0x7f then [c]
  else if isUnprintable c then codePoint c
  else [c]

def quoted (text : String) : String :=
  String.ofList ('"' :: (text.toList.flatMap escapeChar ++ ['"']))

/-- Items between commas. -/
def commaSeparated (items : List String) : String := ", ".intercalate items

/-- A list in brackets. -/
def bracketed (items : List String) : String := "[" ++ commaSeparated items ++ "]"

/-- A set or a map in braces. -/
def braced (items : List String) : String := "\x7b" ++ commaSeparated items ++ "\x7d"

/-- A record: its type and its labelled fields. -/
def record (type : String) (fields : List (String × String)) : String :=
  type ++ " \x7b " ++ commaSeparated (fields.map fun (label, text) => label ++ ": " ++ text) ++ " \x7d"

/-- A record of which only some fields are shown. -/
def partialRecord (type : String) (fields : List (String × String)) : String :=
  type ++ " \x7b " ++ commaSeparated (fields.map (fun (label, text) => label ++ ": " ++ text) ++ [".."])
    ++ " \x7d"

def truth (b : Bool) : String := if b then "true" else "false"

/-- An optional item. -/
def optional (item : Option String) : String :=
  match item with
  | some text => "Some(" ++ text ++ ")"
  | none => "None"

end TemporalRewards.Text
