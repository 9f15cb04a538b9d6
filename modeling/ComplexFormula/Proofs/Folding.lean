import ComplexFormula.Operand

/-!
Making an operand ready for evaluation leaves its value as it is. A call carries its value exactly
if the variable does not occur in it, and then the value is the same wherever it is evaluated.
-/

namespace ComplexFormula.Atom

theorem fold_unary (f : Builtin.Unary) (a : Atom) :
    (unary f a).fold = if a.fold.isChanging then .unary f a.fold ⟨true, none⟩
      else .unary f a.fold ⟨false, some (f.apply (a.fold.evaluate .zero))⟩ := by
  change Operand.unaryM (m := Id) .plain f a.fold = _
  unfold Operand.unaryM
  split <;> rfl

theorem fold_binary (f : Builtin.Binary) (a b : Atom) :
    (binary f a b).fold =
      if a.fold.isChanging || b.fold.isChanging then .binary f a.fold b.fold ⟨true, none⟩
      else .binary f a.fold b.fold
        ⟨false, some (f.apply (a.fold.evaluate .zero) (b.fold.evaluate .zero))⟩ := by
  change Operand.binaryM (m := Id) .plain f a.fold b.fold = _
  unfold Operand.binaryM
  split <;> rfl

theorem isNumber_fold (a : Atom) : HasNumbers.isNumber a.fold = HasNumbers.isNumber a := by
  cases a with
  | number z => rfl
  | free => rfl
  | unary f a =>
    rw [fold_unary]
    split <;> rfl
  | binary f a b =>
    rw [fold_binary]
    split <;> rfl

/-- An operand changes exactly if the variable occurs in it. -/
theorem isChanging_fold (a : Atom) : a.fold.isChanging = a.hasVariable := by
  induction a with
  | number z => rfl
  | free => rfl
  | unary f a ih =>
    rw [fold_unary, hasVariable, ih]
    split <;> simp_all [Operand.isChanging]
  | binary f a b iha ihb =>
    rw [fold_binary, hasVariable, iha, ihb]
    split <;> simp_all [Operand.isChanging]

/-- Where the variable does not occur, no value of it is read. -/
theorem evaluate_eq_of_not_hasVariable {a : Atom} (h : a.hasVariable = false) (x y : ComplexFloat) :
    a.evaluate x = a.evaluate y := by
  induction a with
  | number z => rfl
  | free => simp [hasVariable] at h
  | unary f a ih => rw [evaluate, evaluate, ih h]
  | binary f a b iha ihb =>
    simp only [hasVariable, Bool.or_eq_false_iff] at h
    rw [evaluate, evaluate, iha h.1, ihb h.2]

/-- An operand ready for evaluation has the value of the operand as it is written. -/
theorem evaluate_fold (a : Atom) (x : ComplexFloat) : a.fold.evaluate x = a.evaluate x := by
  induction a generalizing x with
  | number z => rfl
  | free => rfl
  | unary f a ih =>
    rw [fold_unary, isChanging_fold]
    split
    · rw [Operand.evaluate_unary, ih, Option.getD_none, evaluate]
    · next h =>
      rw [Operand.evaluate_unary, Option.getD_some, ih, evaluate,
        evaluate_eq_of_not_hasVariable (by simpa using h) x]
  | binary f a b iha ihb =>
    rw [fold_binary, isChanging_fold, isChanging_fold]
    split
    · rw [Operand.evaluate_binary, iha, ihb, Option.getD_none, evaluate]
    · next h =>
      simp only [Bool.or_eq_true, not_or, Bool.not_eq_true] at h
      rw [Operand.evaluate_binary, Option.getD_some, iha, ihb, evaluate,
        evaluate_eq_of_not_hasVariable h.1 x, evaluate_eq_of_not_hasVariable h.2 x]

end ComplexFormula.Atom
