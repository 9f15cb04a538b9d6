import ComplexFormula.Builtin
import ComplexFormula.ComplexFloat.Text
import ComplexFormula.ParseError
import ComplexFormula.Token

/-!
An operand as it is written: a number, the variable, or a call whose arguments are operands.
-/

namespace ComplexFormula

/-- An operand as it is written. -/
inductive Atom
  | number (z : ComplexFloat)
  | free
  | unary (f : Builtin.Unary) (a : Atom)
  | binary (f : Builtin.Binary) (a b : Atom)
  deriving DecidableEq, Repr

/-- The call of a function by name, given what to make of a function and its arguments. The name is
looked up before the arguments are counted. -/
def Builtin.call {α : Type} (unary : Builtin.Unary → α → α) (binary : Builtin.Binary → α → α → α)
    (name : String) (arguments : List α) (position : Position) : Except ParseError α :=
  match Builtin.ofName? name, arguments with
  | none, _ => .error ⟨.unknownFunction name, position⟩
  | some (.unary f), [a] => .ok (unary f a)
  | some (.binary f), [a, b] => .ok (binary f a b)
  | some f, _ => .error ⟨.wrongCount f.name .arguments f.arity arguments.length, position⟩

/-- A call succeeds if the name is that of a function and it has the arguments that this takes. -/
theorem Builtin.call_eq_ok_iff {α : Type} {unary : Builtin.Unary → α → α}
    {binary : Builtin.Binary → α → α → α} {name : String} {arguments : List α} {position : Position}
    {c : α} : call unary binary name arguments position = .ok c ↔
      (∃ f a, ofName? name = some (.unary f) ∧ arguments = [a] ∧ unary f a = c) ∨
      ∃ f a b, ofName? name = some (.binary f) ∧ arguments = [a, b] ∧ binary f a b = c := by
  constructor
  · intro h
    unfold call at h
    split at h
    · cases h
    · next f a hname => exact .inl ⟨f, a, hname, rfl, Except.ok.inj h⟩
    · next f a b hname => exact .inr ⟨f, a, b, hname, rfl, Except.ok.inj h⟩
    · cases h
  · rintro (⟨f, a, hname, rfl, rfl⟩ | ⟨f, a, b, hname, rfl, rfl⟩) <;> simp [call, hname]

namespace Atom

/-- The call of a function by name, as it is written. -/
def call (name : String) (arguments : List Atom) (position : Position) : Except ParseError Atom :=
  Builtin.call unary binary name arguments position

instance : HasNumbers Atom where
  isNumber
    | number _ => true
    | _ => false

@[simp] theorem isNumber_number (z : ComplexFloat) : HasNumbers.isNumber (number z) = true := rfl

@[simp] theorem isNumber_free : HasNumbers.isNumber free = false := rfl

@[simp] theorem isNumber_unary (f : Builtin.Unary) (a : Atom) :
    HasNumbers.isNumber (unary f a) = false := rfl

@[simp] theorem isNumber_binary (f : Builtin.Binary) (a b : Atom) :
    HasNumbers.isNumber (binary f a b) = false := rfl

/-- Whether the variable occurs in the operand. -/
def hasVariable : Atom → Bool
  | number _ => false
  | free => true
  | unary _ a => a.hasVariable
  | binary _ a b => a.hasVariable || b.hasVariable

/-- The value of the operand where the variable is `x`. -/
def evaluate (x : ComplexFloat) : Atom → ComplexFloat
  | number z => z
  | free => x
  | unary f a => f.apply (a.evaluate x)
  | binary f a b => f.apply (a.evaluate x) (b.evaluate x)

/-- The text of the operand, with a blank after each comma. -/
def text : Atom → String
  | number z => z.text
  | free => "x"
  | unary f a => f.name ++ "(" ++ a.text ++ ")"
  | binary f a b => f.name ++ "(" ++ a.text ++ ", " ++ b.text ++ ")"

end Atom

end ComplexFormula
