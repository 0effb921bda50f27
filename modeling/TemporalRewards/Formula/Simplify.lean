import TemporalRewards.Formula.Order

/-! Simplification. Each operator has a constructor that folds constants and
picks one shape among equivalent ones, given operands that are simplified
already; simplifying a formula applies these constructors from the leaves up.
Negation moves inward through the unary temporal operators, and the operands of
a junction are flattened, sorted and distinct. -/
namespace TemporalRewards

namespace Junction

/-- The constant that decides the junction on its own. -/
def absorbing : Junction → Formula
  | all => .bot
  | any => .top

/-- The constant that may be left out of the junction. -/
def identity : Junction → Formula
  | all => .top
  | any => .bot

/-- What one operand contributes: the operands of a junction of the same kind,
else the operand itself. -/
def parts (kind : Junction) : Formula → List Formula
  | .junction inner operands => if inner = kind then operands else [.junction inner operands]
  | φ => [φ]

end Junction

namespace Formula

/-- Adds an operand to a strictly increasing list unless it is there already. -/
def insertOperand (φ : Formula) : List Formula → List Formula
  | [] => [φ]
  | ψ :: rest =>
    match compare φ ψ with
    | .lt => φ :: ψ :: rest
    | .eq => ψ :: rest
    | .gt => ψ :: insertOperand φ rest

/-- The distinct operands in increasing order. -/
def sortOperands (operands : List Formula) : List Formula := operands.foldr insertOperand []

/-- Whether some operand stands beside its own negation. -/
def hasComplement (operands : List Formula) : Bool :=
  operands.any fun
    | neg φ => operands.contains φ
    | _ => false

/-- A junction of sorted, distinct operands without constants; one with a single
operand is that operand. -/
def closeJunction (kind : Junction) : List Formula → Formula
  | [] => kind.identity
  | [φ] => φ
  | operands => junction kind operands

def junctionOf (kind : Junction) (operands : List Formula) : Formula :=
  let flat := operands.flatMap kind.parts
  if flat.contains kind.absorbing then kind.absorbing
  else
    let kept := sortOperands (flat.filter (· != kind.identity))
    if hasComplement kept then kind.absorbing else closeJunction kind kept

def nextOf : Formula → Formula
  | bot => bot
  | top => top
  | φ => next φ

def eventuallyOf : Formula → Formula
  | bot => bot
  | top => top
  | φ => eventually φ

def alwaysOf : Formula → Formula
  | bot => bot
  | top => top
  | φ => always φ

def negationOf : Formula → Formula
  | bot => top
  | top => bot
  | neg φ => φ
  | next φ => nextOf (negationOf φ)
  | eventually φ => alwaysOf (negationOf φ)
  | always φ => eventuallyOf (negationOf φ)
  | φ => neg φ

def impliesOf : Formula → Formula → Formula
  | bot, _ => top
  | _, top => top
  | top, ψ => ψ
  | φ, bot => negationOf φ
  | φ, ψ => if φ = ψ then top else implies φ ψ

def untilOf : Formula → Formula → Formula
  | _, top => top
  | _, bot => bot
  | bot, ψ => ψ
  | top, ψ => eventually ψ
  | φ, ψ => if φ = ψ then φ else strongUntil φ ψ

mutual

def simplify : Formula → Formula
  | bot => bot
  | top => top
  | atom i => atom i
  | neg φ => negationOf φ.simplify
  | junction kind operands => junctionOf kind (simplifyAll operands)
  | implies φ ψ => impliesOf φ.simplify ψ.simplify
  | next φ => nextOf φ.simplify
  | eventually φ => eventuallyOf φ.simplify
  | always φ => alwaysOf φ.simplify
  | strongUntil φ ψ => untilOf φ.simplify ψ.simplify

def simplifyAll : List Formula → List Formula
  | [] => []
  | φ :: rest => φ.simplify :: simplifyAll rest

end

theorem simplifyAll_eq_map (operands : List Formula) : simplifyAll operands = operands.map simplify := by
  induction operands with
  | nil => rfl
  | cons φ rest ih => simp [simplifyAll, ih]

theorem simplify_junction (kind : Junction) (operands : List Formula) :
    (junction kind operands).simplify = junctionOf kind (operands.map simplify) := by
  rw [simplify, simplifyAll_eq_map]

theorem simplify_pair (kind : Junction) (φ ψ : Formula) :
    (junction kind [φ, ψ]).simplify = junctionOf kind [φ.simplify, ψ.simplify] := by
  rw [simplify_junction, List.map_cons, List.map_singleton]

end Formula

end TemporalRewards
