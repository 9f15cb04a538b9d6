import ComplexFormula.ComplexFloat.Polar

/-!
The binary operators: their symbols, how tightly they bind, and what they compute.
-/

namespace ComplexFormula

/-- The five binary operators. -/
inductive Operator
  | pow
  | mul
  | div
  | sub
  | add
  deriving DecidableEq, Repr

namespace Operator

/-- The operators in the order in which they are listed, the tightest first. -/
def all : List Operator := [pow, mul, div, sub, add]

/-- The character that writes an operator. -/
def symbol : Operator → Char
  | pow => '^'
  | mul => '*'
  | div => '/'
  | sub => '-'
  | add => '+'

/-- How tightly an operator binds; the greater number binds first. -/
def precedence : Operator → Nat
  | pow => 4
  | mul => 3
  | div => 3
  | sub => 2
  | add => 2

/-- Whether a chain of the operator groups to the right. -/
def rightAssociative : Operator → Bool
  | pow => true
  | _ => false

/-- The operator that a character writes. -/
def ofSymbol? (c : Char) : Option Operator :=
  all.find? (·.symbol == c)

/-- Whether `left`, standing before `right`, takes the operand between them. -/
def bindsBefore (left right : Operator) : Bool :=
  right.precedence < left.precedence
    || left.precedence == right.precedence && !left.rightAssociative

/-- The value of an operator on its two operands. -/
def apply : Operator → ComplexFloat → ComplexFloat → ComplexFloat
  | pow, a, b => a.pow b
  | mul, a, b => a * b
  | div, a, b => a / b
  | sub, a, b => a - b
  | add, a, b => a + b

theorem mem_all (o : Operator) : o ∈ all := by
  cases o <;> simp [all]

/-- Each operator is read back from its own character. -/
theorem ofSymbol?_symbol (o : Operator) : ofSymbol? o.symbol = some o := by
  cases o <;> rfl

end Operator

end ComplexFormula
