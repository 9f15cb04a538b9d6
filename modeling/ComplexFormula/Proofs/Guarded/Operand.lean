import ComplexFormula.Proofs.Guarded.Outcome
import ComplexFormula.Proofs.Transparency

/-!
Operands whose calls have a list of arguments, of any length. A function is run on the values of the
list, and there it shows whether they are as many as it takes.
-/

namespace ComplexFormula

/-- An operand whose calls hold their arguments in a list. -/
inductive OpenOperand
  | number (z : ComplexFloat)
  | free
  | call (f : Builtin) (arguments : List OpenOperand) (memo : Memo)

/-- Runs the body of a function on exactly as many values as it takes. -/
def Builtin.run (f : Builtin) (values : List ComplexFloat) : Guarded ComplexFloat :=
  Guarded.require .wrongArity (f.value? values)

namespace OpenOperand

instance : HasNumbers OpenOperand where
  isNumber
    | number _ => true
    | _ => false

/-- Whether the value changes with the variable. -/
def isChanging : OpenOperand → Bool
  | number _ => false
  | free => true
  | call _ _ memo => memo.changing

mutual

/-- The value of an operand where the variable is `x`. A call that carries its value is not run. -/
def evaluate (x : ComplexFloat) : OpenOperand → Guarded ComplexFloat
  | number z => pure z
  | free => pure x
  | call _ _ ⟨_, some value⟩ => pure value
  | call f arguments ⟨_, none⟩ => do f.run (← evaluateAll x arguments)

/-- The values of the arguments of a call. -/
def evaluateAll (x : ComplexFloat) : List OpenOperand → Guarded (List ComplexFloat)
  | [] => pure []
  | a :: arguments => do
    let value ← evaluate x a
    let values ← evaluateAll x arguments
    pure (value :: values)

end

/-- The call of a function, run at once if its arguments are constant. -/
def make (f : Builtin) (arguments : List OpenOperand) : Guarded OpenOperand :=
  if arguments.any isChanging then pure (call f arguments ⟨true, none⟩)
  else do
    let value ← evaluate .zero (call f arguments ⟨false, none⟩)
    pure (call f arguments ⟨false, some value⟩)

/-- The call of a function by name. The name is looked up before the arguments are counted. -/
def makeByName (name : String) (arguments : List OpenOperand) (start : Nat) :
    Guarded OpenOperand :=
  match Builtin.ofName? name with
  | none => Guarded.refuse (.unknownFunction name) start
  | some f =>
    if arguments.length = f.arity then make f arguments
    else Guarded.refuse (.wrongCount f.name .arguments f.arity arguments.length) start

end OpenOperand

/-- The operand with its arguments in lists. -/
def Operand.opened : Operand → OpenOperand
  | number z => .number z
  | free => .free
  | unary f a memo => .call (.unary f) [a.opened] memo
  | binary f a b memo => .call (.binary f) [a.opened, b.opened] memo

namespace Operand

theorem isNumber_opened (a : Operand) :
    HasNumbers.isNumber a.opened = HasNumbers.isNumber a := by
  cases a <;> rfl

theorem isChanging_opened (a : Operand) : a.opened.isChanging = a.isChanging := by
  cases a <;> rfl

/-- No function is run on too many values or too few. -/
theorem evaluate_opened (x : ComplexFloat) (a : Operand) :
    a.opened.evaluate x = .ok (a.evaluate x) := by
  induction a with
  | number z => simp [opened, OpenOperand.evaluate, pure, Except.pure]
  | free => simp [opened, OpenOperand.evaluate, pure, Except.pure]
  | unary f a memo ih =>
    obtain ⟨changing, _ | value⟩ := memo
    · rw [opened, OpenOperand.evaluate, OpenOperand.evaluateAll, OpenOperand.evaluateAll, ih]
      rfl
    · rw [opened, OpenOperand.evaluate]
      rfl
  | binary f a b memo iha ihb =>
    obtain ⟨changing, _ | value⟩ := memo
    · rw [opened, OpenOperand.evaluate, OpenOperand.evaluateAll, OpenOperand.evaluateAll,
        OpenOperand.evaluateAll, iha, ihb]
      rfl
    · rw [opened, OpenOperand.evaluate]
      rfl

end Operand

/-- The operand as it is written, made ready for evaluation with its arguments in lists. -/
def Atom.opened (a : Atom) : OpenOperand :=
  a.fold.opened

namespace Atom

theorem isNumber_opened (a : Atom) : HasNumbers.isNumber a.opened = HasNumbers.isNumber a := by
  rw [opened, Operand.isNumber_opened, isNumber_fold]

theorem make_unary (f : Builtin.Unary) (a : Atom) :
    OpenOperand.make (.unary f) [a.opened] = .ok (unary f a).opened := by
  rw [opened, opened, fold_unary, OpenOperand.make]
  cases h : a.fold.isChanging with
  | true =>
    rw [if_pos (by simp [Operand.isChanging_opened, h])]
    rfl
  | false =>
    have hrun := (Operand.unary f a.fold ⟨false, none⟩).evaluate_opened .zero
    rw [Operand.opened] at hrun
    rw [if_neg (by simp [Operand.isChanging_opened, h]), hrun]
    rfl

theorem make_binary (f : Builtin.Binary) (a b : Atom) :
    OpenOperand.make (.binary f) [a.opened, b.opened] = .ok (binary f a b).opened := by
  rw [opened, opened, opened, fold_binary, OpenOperand.make]
  cases h : a.fold.isChanging || b.fold.isChanging with
  | true =>
    rw [if_pos (by simpa [Operand.isChanging_opened] using h)]
    rfl
  | false =>
    have hrun := (Operand.binary f a.fold b.fold ⟨false, none⟩).evaluate_opened .zero
    rw [Operand.opened] at hrun
    rw [if_neg (by simpa [Operand.isChanging_opened] using h), hrun]
    rfl

/-- A call by name is refused or made as it is without a guard. -/
theorem makeByName_opened (name : String) (arguments : List Atom) (start : Nat) :
    OpenOperand.makeByName name (arguments.map opened) start =
      Guarded.lift (opened <$> call name arguments (.offset start)) := by
  unfold OpenOperand.makeByName call Builtin.call
  rcases Builtin.ofName? name with _ | f | f
  · rfl
  · rcases arguments with _ | ⟨a, _ | ⟨b, arguments⟩⟩
    · rfl
    · exact (if_pos rfl).trans (make_unary f a)
    · simp [Builtin.arity, Guarded.refuse]
  · rcases arguments with _ | ⟨a, _ | ⟨b, _ | ⟨c, arguments⟩⟩⟩
    · rfl
    · rfl
    · exact (if_pos rfl).trans (make_binary f a b)
    · simp [Builtin.arity, Guarded.refuse]

end Atom

end ComplexFormula
