import ComplexFormula.ComplexFloat.Elementary

/-!
The functions that a formula can call by name: how many arguments each takes and what it computes.
A function comes with its number of arguments in its type, so that none is ever run on another.
-/

namespace ComplexFormula

/-- The functions of one argument. -/
inductive Builtin.Unary
  | sin
  | cos
  | tan
  | sinh
  | cosh
  | exp
  | ln
  | sqrt
  deriving DecidableEq, Repr

/-- The functions of two arguments. -/
inductive Builtin.Binary
  | pow
  deriving DecidableEq, Repr

/-- The functions with a name. -/
inductive Builtin
  | unary (f : Builtin.Unary)
  | binary (f : Builtin.Binary)
  deriving DecidableEq, Repr

namespace Builtin

/-- The name of a function of one argument. -/
def Unary.name : Unary → String
  | sin => "sin"
  | cos => "cos"
  | tan => "tan"
  | sinh => "sinh"
  | cosh => "cosh"
  | exp => "exp"
  | ln => "ln"
  | sqrt => "sqrt"

/-- The value of a function of one argument. -/
def Unary.apply : Unary → ComplexFloat → ComplexFloat
  | sin, z => z.sin
  | cos, z => z.cos
  | tan, z => z.tan
  | sinh, z => z.sinh
  | cosh, z => z.cosh
  | exp, z => z.exp
  | ln, z => z.ln
  | sqrt, z => z.sqrt

/-- The name of a function of two arguments. -/
def Binary.name : Binary → String
  | pow => "pow"

/-- The value of a function of two arguments. -/
def Binary.apply : Binary → ComplexFloat → ComplexFloat → ComplexFloat
  | pow, z, w => z.pow w

/-- The functions in the order in which they are listed. -/
def all : List Builtin :=
  [unary .sin, unary .cos, unary .tan, unary .sinh, unary .cosh, unary .exp, unary .ln,
    unary .sqrt, binary .pow]

/-- The name of a function. -/
def name : Builtin → String
  | unary f => f.name
  | binary f => f.name

/-- The number of arguments that a function takes. -/
def arity : Builtin → Nat
  | unary _ => 1
  | binary _ => 2

/-- The function of a name, in small or capital letters. -/
def ofName? (name : String) : Option Builtin :=
  all.find? (·.name == name.map Char.toLower)

/-- The value of a function on a list of arguments, `none` if they are too many or too few. -/
def value? : Builtin → List ComplexFloat → Option ComplexFloat
  | unary f, [z] => some (f.apply z)
  | binary f, [z, w] => some (f.apply z w)
  | _, _ => none

theorem mem_all (f : Builtin) : f ∈ all := by
  rcases f with f | f <;> cases f <;> simp [all]

/-- A way to run functions, in a monad that may take note of each run. -/
structure Runner (m : Type → Type) where
  unary : Unary → ComplexFloat → m ComplexFloat
  binary : Binary → ComplexFloat → ComplexFloat → m ComplexFloat

/-- Runs that nobody takes note of. -/
def Runner.plain : Runner Id where
  unary f z := f.apply z
  binary f z w := f.apply z w

end Builtin

end ComplexFormula
