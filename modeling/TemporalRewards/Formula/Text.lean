import TemporalRewards.Alphabet
import TemporalRewards.Formula.Basic

/-! The texts of a formula: with names for its propositions, in plain form with
numbered propositions, and as a structural dump. -/
namespace TemporalRewards

def Junction.word : Junction → String
  | all => "and"
  | any => "or"

/-- The name of the junction in a structural dump. -/
def Junction.label : Junction → String
  | all => "And"
  | any => "Or"

namespace Formula

mutual

/-- Writes the formula in front of `rest`. Binary operators and junctions are
always parenthesised. -/
def write (name : Nat → String) (φ : Formula) (rest : List Char) : List Char :=
  match φ with
  | bot => "false".toList ++ rest
  | top => "true".toList ++ rest
  | atom i => (name i).toList ++ rest
  | neg φ => "not ".toList ++ φ.write name rest
  | next φ => "X ".toList ++ φ.write name rest
  | eventually φ => "F ".toList ++ φ.write name rest
  | always φ => "G ".toList ++ φ.write name rest
  | junction kind operands => '(' :: writeAll name kind operands (')' :: rest)
  | implies φ ψ => '(' :: φ.write name (" => ".toList ++ ψ.write name (')' :: rest))
  | strongUntil φ ψ => '(' :: φ.write name (" U ".toList ++ ψ.write name (')' :: rest))

/-- Writes operands with the word of their junction between them. -/
def writeAll (name : Nat → String) (kind : Junction) (operands : List Formula) (rest : List Char) :
    List Char :=
  match operands with
  | [] => rest
  | φ :: others => φ.write name (writeRest name kind others rest)

def writeRest (name : Nat → String) (kind : Junction) (operands : List Formula) (rest : List Char) :
    List Char :=
  match operands with
  | [] => rest
  | φ :: others =>
    ' ' :: (kind.word.toList ++ (' ' :: φ.write name (writeRest name kind others rest)))

end

/-- The name of a proposition without one. -/
def numbered (index : Nat) : String := "p" ++ toString index

/-- The text with numbered propositions. -/
def text (φ : Formula) : String := String.ofList (φ.write numbered [])

/-- The text with names; a proposition past the alphabet is numbered. -/
def namedText (φ : Formula) (alphabet : Alphabet) : String :=
  String.ofList (φ.write (fun i => (alphabet.name? i).getD (numbered i)) [])

mutual

/-- Writes the structural dump of the formula in front of `rest`. -/
def dump (φ : Formula) (rest : List Char) : List Char :=
  match φ with
  | bot => "False".toList ++ rest
  | top => "True".toList ++ rest
  | atom i => ("Atom(" ++ toString i ++ ")").toList ++ rest
  | neg φ => "Not(".toList ++ φ.dump (')' :: rest)
  | next φ => "Next(".toList ++ φ.dump (')' :: rest)
  | eventually φ => "Eventually(".toList ++ φ.dump (')' :: rest)
  | always φ => "Always(".toList ++ φ.dump (')' :: rest)
  | junction kind operands =>
    kind.label.toList ++ ("([".toList ++ dumpAll operands ("])".toList ++ rest))
  | implies φ ψ => "Implies((".toList ++ φ.dump (", ".toList ++ ψ.dump ("))".toList ++ rest))
  | strongUntil φ ψ => "Until((".toList ++ φ.dump (", ".toList ++ ψ.dump ("))".toList ++ rest))

def dumpAll (operands : List Formula) (rest : List Char) : List Char :=
  match operands with
  | [] => rest
  | [φ] => φ.dump rest
  | φ :: others => φ.dump (", ".toList ++ dumpAll others rest)

end

def dumpText (φ : Formula) : String := String.ofList (φ.dump [])

end Formula

end TemporalRewards
