import ComplexFormula.Operator
import ComplexFormula.Spanned

/-!
The tokens of a formula and, without the parentheses, its terms. Both leave open what an operand is.
-/

namespace ComplexFormula

/-- An operand or an operator. -/
inductive Term (α : Type)
  | operand (a : α)
  | operator (o : Operator)
  deriving DecidableEq, Repr

/-- An operand, an operator or a parenthesis. -/
inductive Token (α : Type)
  | operand (a : α)
  | operator (o : Operator)
  | opening
  | closing
  deriving DecidableEq, Repr

variable {α : Type}

/-- Operands among which numbers are told apart. -/
class HasNumbers (α : Type) where
  isNumber : α → Bool

/-- A term is a token. -/
def Term.toToken : Term α → Token α
  | operand a => .operand a
  | operator o => .operator o

namespace Token

/-- Another operand at a token. -/
def map {β : Type} (f : α → β) : Token α → Token β
  | operand a => .operand (f a)
  | operator o => .operator o
  | opening => .opening
  | closing => .closing

/-- Every token but a parenthesis is a term. -/
def term? : Token α → Option (Term α)
  | operand a => some (.operand a)
  | operator o => some (.operator o)
  | opening => none
  | closing => none

/-- The operand that a token is. -/
def operand? : Token α → Option α
  | operand a => some a
  | _ => none

/-- Whether an operand can end with the token. -/
def endsOperand : Token α → Bool
  | operand _ => true
  | closing => true
  | _ => false

/-- The text of a token, given that of an operand. -/
def text (operandText : α → String) : Token α → String
  | operand a => operandText a
  | operator o => o.symbol.toString
  | opening => "("
  | closing => ")"

theorem endsOperand_map {β : Type} (f : α → β) (t : Token α) :
    (t.map f).endsOperand = t.endsOperand := by
  cases t <;> rfl

end Token

end ComplexFormula
