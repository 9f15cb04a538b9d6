import ComplexFormula.Atom

/-!
An operand ready for evaluation. A call in which the variable does not occur carries its value,
found once when the operand is made; a call in which it does is run anew on each evaluation.
-/

namespace ComplexFormula

/-- What a call notes of itself when it is made: whether its value changes with the variable, and
the value if it was run at once. -/
structure Memo where
  changing : Bool
  value? : Option ComplexFloat
  deriving BEq, Repr

/-- An operand whose constant calls carry their values. Two operands are compared together with the
values that they carry, as numbers are. -/
inductive Operand
  | number (z : ComplexFloat)
  | free
  | unary (f : Builtin.Unary) (a : Operand) (memo : Memo)
  | binary (f : Builtin.Binary) (a b : Operand) (memo : Memo)
  deriving BEq, Repr

namespace Operand

instance : HasNumbers Operand where
  isNumber
    | number _ => true
    | _ => false

/-- Whether the value changes with the variable. A call has it noted. -/
def isChanging : Operand → Bool
  | number _ => false
  | free => true
  | unary _ _ memo => memo.changing
  | binary _ _ _ memo => memo.changing

/-- The operand as it is written. -/
def toAtom : Operand → Atom
  | number z => .number z
  | free => .free
  | unary f a _ => .unary f a.toAtom
  | binary f a b _ => .binary f a.toAtom b.toAtom

variable {m : Type → Type} [Monad m]

/-- Evaluation where the variable is `x`. A call that carries its value is not run. -/
def evaluateM (run : Builtin.Runner m) (x : ComplexFloat) : Operand → m ComplexFloat
  | number z => pure z
  | free => pure x
  | unary _ _ ⟨_, some value⟩ => pure value
  | unary f a ⟨_, none⟩ => do run.unary f (← a.evaluateM run x)
  | binary _ _ _ ⟨_, some value⟩ => pure value
  | binary f a b ⟨_, none⟩ => do
    let value ← a.evaluateM run x
    run.binary f value (← b.evaluateM run x)

/-- The value of the operand where the variable is `x`. -/
def evaluate (x : ComplexFloat) (operand : Operand) : ComplexFloat :=
  Id.run (operand.evaluateM .plain x)

/-- A call of one argument, run at once if its argument is constant. The variable is then nowhere
read, and `0` stands in for it. -/
def unaryM (run : Builtin.Runner m) (f : Builtin.Unary) (a : Operand) : m Operand :=
  if a.isChanging then pure (unary f a ⟨true, none⟩)
  else do
    let value ← (unary f a ⟨false, none⟩).evaluateM run .zero
    pure (unary f a ⟨false, some value⟩)

/-- A call of two arguments, run at once if both are constant. -/
def binaryM (run : Builtin.Runner m) (f : Builtin.Binary) (a b : Operand) : m Operand :=
  if a.isChanging || b.isChanging then pure (binary f a b ⟨true, none⟩)
  else do
    let value ← (binary f a b ⟨false, none⟩).evaluateM run .zero
    pure (binary f a b ⟨false, some value⟩)

/-- The call of a function by name on operands that are ready, run at once if they are constant. -/
def call (name : String) (arguments : List Operand) (position : Position) :
    Except ParseError Operand :=
  Builtin.call (fun f a => Id.run (unaryM .plain f a)) (fun f a b => Id.run (binaryM .plain f a b))
    name arguments position

end Operand

namespace Atom

variable {m : Type → Type} [Monad m]

/-- Makes an operand ready for evaluation, arguments first. -/
def foldM (run : Builtin.Runner m) : Atom → m Operand
  | number z => pure (.number z)
  | free => pure .free
  | unary f a => do Operand.unaryM run f (← a.foldM run)
  | binary f a b => do
    let left ← a.foldM run
    Operand.binaryM run f left (← b.foldM run)

/-- The operand ready for evaluation. -/
def fold (a : Atom) : Operand :=
  Id.run (a.foldM .plain)

end Atom

namespace Operand

@[simp] theorem evaluate_number (x z : ComplexFloat) : (number z).evaluate x = z := rfl

@[simp] theorem evaluate_free (x : ComplexFloat) : free.evaluate x = x := rfl

@[simp] theorem evaluate_unary (x : ComplexFloat) (f : Builtin.Unary) (a : Operand) (memo : Memo) :
    (unary f a memo).evaluate x = memo.value?.getD (f.apply (a.evaluate x)) := by
  rcases memo with ⟨_, _ | _⟩ <;> rfl

@[simp] theorem evaluate_binary (x : ComplexFloat) (f : Builtin.Binary) (a b : Operand)
    (memo : Memo) :
    (binary f a b memo).evaluate x =
      memo.value?.getD (f.apply (a.evaluate x) (b.evaluate x)) := by
  rcases memo with ⟨_, _ | _⟩ <;> rfl

end Operand

end ComplexFormula
