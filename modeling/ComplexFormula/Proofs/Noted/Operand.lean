import ComplexFormula.Proofs.Folding

/-!
The runs of functions that an operand takes, each of which is noted in a state. When the operand is
made ready, the calls in it without the variable are run, and on each evaluation the others, each of
them once. A call in an argument is run before the call that the argument is for.
-/

namespace ComplexFormula

namespace Builtin

/-- A run of the body of a function: the function and the values of its arguments. -/
structure Run where
  function : Builtin
  values : List ComplexFloat

variable {σ : Type}

/-- Runs each of which is noted in a state. -/
def Runner.noting (note : σ → Run → σ) : Runner (StateM σ) where
  unary f z := do
    modify (note · ⟨.unary f, [z]⟩)
    pure (f.apply z)
  binary f z w := do
    modify (note · ⟨.binary f, [z, w]⟩)
    pure (f.apply z w)

/-- Runs that are counted. -/
def Runner.counting : Runner (StateM Nat) :=
  noting fun count _ => count + 1

/-- Runs that are put on a list, the last one last. -/
def Runner.recording : Runner (StateM (List Run)) :=
  noting fun done run => done ++ [run]

end Builtin

/-- A call that stands in an operand. -/
structure Call where
  function : Builtin
  arguments : List Atom

namespace Call

/-- Whether the variable occurs in an argument of the call, to any depth. -/
def hasVariable (c : Call) : Bool :=
  c.arguments.any Atom.hasVariable

/-- The run of the call where the variable is `x`. -/
def run (x : ComplexFloat) (c : Call) : Builtin.Run :=
  ⟨c.function, c.arguments.map (Atom.evaluate x)⟩

/-- The runs of the calls without the variable, in which `0` stands in for it. -/
def constantRuns (calls : List Call) : List Builtin.Run :=
  (calls.filter (!·.hasVariable)).map (run .zero)

/-- The runs of the calls with the variable, where this is `x`. -/
def changingRuns (x : ComplexFloat) (calls : List Call) : List Builtin.Run :=
  (calls.filter (·.hasVariable)).map (run x)

@[simp] theorem constantRuns_append (calls more : List Call) :
    constantRuns (calls ++ more) = constantRuns calls ++ constantRuns more := by
  simp [constantRuns]

@[simp] theorem changingRuns_append (x : ComplexFloat) (calls more : List Call) :
    changingRuns x (calls ++ more) = changingRuns x calls ++ changingRuns x more := by
  simp [changingRuns]

theorem constantRuns_flatMap {α : Type} (calls : α → List Call) (as : List α) :
    constantRuns (as.flatMap calls) = as.flatMap fun a => constantRuns (calls a) := by
  simp [constantRuns, List.filter_flatMap, List.map_flatMap]

theorem changingRuns_flatMap {α : Type} (x : ComplexFloat) (calls : α → List Call) (as : List α) :
    changingRuns x (as.flatMap calls) = as.flatMap fun a => changingRuns x (calls a) := by
  simp [changingRuns, List.filter_flatMap, List.map_flatMap]

theorem length_constantRuns (calls : List Call) :
    (constantRuns calls).length = calls.countP (!·.hasVariable) := by
  rw [constantRuns, List.length_map, List.countP_eq_length_filter]

theorem length_changingRuns (x : ComplexFloat) (calls : List Call) :
    (changingRuns x calls).length = calls.countP (·.hasVariable) := by
  rw [changingRuns, List.length_map, List.countP_eq_length_filter]

variable {c : Call}

theorem constantRuns_singleton (h : c.hasVariable = false) : constantRuns [c] = [c.run .zero] := by
  simp [constantRuns, h]

theorem constantRuns_singleton_of_hasVariable (h : c.hasVariable = true) :
    constantRuns [c] = [] := by
  simp [constantRuns, h]

theorem changingRuns_singleton (h : c.hasVariable = true) (x : ComplexFloat) :
    changingRuns x [c] = [c.run x] := by
  simp [changingRuns, h]

end Call

/-- The calls in an operand to any depth, those in the arguments of a call before the call. -/
def Atom.calls : Atom → List Call
  | number _ => []
  | free => []
  | unary f a => a.calls ++ [⟨.unary f, [a]⟩]
  | binary f a b => a.calls ++ b.calls ++ [⟨.binary f, [a, b]⟩]

open Builtin (Run Runner)

variable {σ α β : Type} {note : σ → Run → σ}

/-! ### What is noted -/

/-- Whatever is noted before, the computation has this value and notes these runs in turn. -/
def Noted (note : σ → Run → σ) (c : StateM σ α) (a : α) (runs : List Run) : Prop :=
  ∀ s, c.run s = (a, runs.foldl note s)

namespace Noted

theorem pure (a : α) : Noted note (pure a) a [] :=
  fun _ => rfl

/-- One computation after the other. -/
theorem bind {c : StateM σ α} {a : α} {k : α → StateM σ β} {b : β} {runs more : List Run}
    (h : Noted note c a runs) (hk : Noted note (k a) b more) :
    Noted note (c >>= k) b (runs ++ more) := by
  intro s
  change (c.run s >>= fun p => (k p.1).run p.2) = _
  rw [h s, List.foldl_append]
  exact hk _

theorem map {c : StateM σ α} {a : α} {runs : List Run} (f : α → β) (h : Noted note c a runs) :
    Noted note (f <$> c) (f a) runs := by
  rw [map_eq_pure_bind, ← List.append_nil runs]
  exact h.bind (.pure _)

/-- What is done with each item of a list. -/
theorem mapM {f : α → StateM σ β} {g : α → β} {runs : α → List Run} {as : List α}
    (h : ∀ a ∈ as, Noted note (f a) (g a) (runs a)) :
    Noted note (as.mapM f) (as.map g) (as.flatMap runs) := by
  induction as with
  | nil => exact .pure _
  | cons a as ih =>
    rw [List.mapM_cons, List.map_cons, List.flatMap_cons]
    refine (h a (.head _)).bind ?_
    rw [← List.append_nil (as.flatMap runs)]
    exact (ih fun b hb => h b (.tail _ hb)).bind (.pure _)

theorem unary (f : Builtin.Unary) (z : ComplexFloat) :
    Noted note ((Runner.noting note).unary f z) (f.apply z) [⟨.unary f, [z]⟩] :=
  fun _ => rfl

theorem binary (f : Builtin.Binary) (z w : ComplexFloat) :
    Noted note ((Runner.noting note).binary f z w) (f.apply z w) [⟨.binary f, [z, w]⟩] :=
  fun _ => rfl

/-- A count goes up by the number of the runs. -/
theorem counting {c : StateM Nat α} {a : α} {runs : List Run}
    (h : Noted (fun count _ => count + 1) c a runs) (n : Nat) : c.run n = (a, n + runs.length) := by
  rw [h n, List.foldl_add_const, Nat.one_mul]

/-- A list gets the runs at its end. -/
theorem recording {c : StateM (List Run) α} {a : α} {runs : List Run}
    (h : Noted (fun done run => done ++ [run]) c a runs) (done : List Run) :
    c.run done = (a, done ++ runs) := by
  rw [h done, List.foldl_append_eq_append, ← List.flatMap_def, List.flatMap_singleton']

end Noted

/-! ### Runs of an operand -/

namespace Atom

variable {a : Atom}

/-- Where the variable does not occur, no call changes with it. -/
theorem changingRuns_calls (h : a.hasVariable = false) (x : ComplexFloat) :
    Call.changingRuns x a.calls = [] := by
  induction a with
  | number z => rfl
  | free => rfl
  | unary f a ih =>
    rw [calls, Call.changingRuns_append, ih h]
    simp_all [Call.changingRuns, Call.hasVariable, hasVariable]
  | binary f a b iha ihb =>
    simp only [hasVariable, Bool.or_eq_false_iff] at h
    rw [calls, Call.changingRuns_append, Call.changingRuns_append, iha h.1, ihb h.2]
    simp [Call.changingRuns, Call.hasVariable, h]

/-- An evaluation runs the calls with the variable, each of them once, and no others. -/
theorem noted_evaluateM (a : Atom) (x : ComplexFloat) :
    Noted note (a.fold.evaluateM (.noting note) x) (a.evaluate x)
      (Call.changingRuns x a.calls) := by
  induction a with
  | number z => exact .pure z
  | free => exact .pure x
  | unary f a ih =>
    cases h : a.hasVariable with
    | true =>
      rw [fold_unary, isChanging_fold, if_pos h, calls, Call.changingRuns_append,
        Call.changingRuns_singleton (by simpa [Call.hasVariable] using h)]
      exact ih.bind (.unary f _)
    | false =>
      have hcall : (unary f a).hasVariable = false := h
      rw [changingRuns_calls hcall, evaluate_eq_of_not_hasVariable hcall x .zero, fold_unary,
        isChanging_fold, if_neg (by simp [h]), evaluate, ← a.evaluate_fold]
      exact .pure _
  | binary f a b iha ihb =>
    cases h : a.hasVariable || b.hasVariable with
    | true =>
      rw [fold_binary, isChanging_fold, isChanging_fold, if_pos h, calls,
        Call.changingRuns_append, Call.changingRuns_append, List.append_assoc,
        Call.changingRuns_singleton (by simpa [Call.hasVariable] using h)]
      exact iha.bind (ihb.bind (.binary f _ _))
    | false =>
      have hcall : (binary f a b).hasVariable = false := h
      rw [changingRuns_calls hcall, evaluate_eq_of_not_hasVariable hcall x .zero, fold_binary,
        isChanging_fold, isChanging_fold, if_neg (by simp [h]), evaluate, ← a.evaluate_fold,
        ← b.evaluate_fold]
      exact .pure _

/-- A call on an operand that is ready is run once if the variable does not occur in it. -/
theorem noted_unaryM (f : Builtin.Unary) (a : Atom) :
    Noted note (Operand.unaryM (.noting note) f a.fold) (unary f a).fold
      (Call.constantRuns [⟨.unary f, [a]⟩]) := by
  rw [fold_unary, Operand.unaryM, isChanging_fold]
  cases h : a.hasVariable with
  | true =>
    rw [if_pos rfl, if_pos rfl,
      Call.constantRuns_singleton_of_hasVariable (by simpa [Call.hasVariable])]
    exact .pure _
  | false =>
    rw [if_neg Bool.false_ne_true, if_neg Bool.false_ne_true, a.evaluate_fold,
      Call.constantRuns_singleton (by simpa [Call.hasVariable])]
    have harguments : Noted note (a.fold.evaluateM (.noting note) .zero) _ _ :=
      a.noted_evaluateM .zero
    rw [changingRuns_calls h] at harguments
    exact (harguments.bind (.unary f _)).bind (.pure _)

theorem noted_binaryM (f : Builtin.Binary) (a b : Atom) :
    Noted note (Operand.binaryM (.noting note) f a.fold b.fold) (binary f a b).fold
      (Call.constantRuns [⟨.binary f, [a, b]⟩]) := by
  rw [fold_binary, Operand.binaryM, isChanging_fold, isChanging_fold]
  cases h : a.hasVariable || b.hasVariable with
  | true =>
    rw [if_pos rfl, if_pos rfl,
      Call.constantRuns_singleton_of_hasVariable (by simpa [Call.hasVariable] using h)]
    exact .pure _
  | false =>
    rw [if_neg Bool.false_ne_true, if_neg Bool.false_ne_true, a.evaluate_fold, b.evaluate_fold,
      Call.constantRuns_singleton (by simpa [Call.hasVariable] using h)]
    obtain ⟨ha, hb⟩ := Bool.or_eq_false_iff.1 h
    have hleft : Noted note (a.fold.evaluateM (.noting note) .zero) _ _ := a.noted_evaluateM .zero
    have hright : Noted note (b.fold.evaluateM (.noting note) .zero) _ _ := b.noted_evaluateM .zero
    rw [changingRuns_calls ha] at hleft
    rw [changingRuns_calls hb] at hright
    have hvalue : Noted note
        ((Operand.binary f a.fold b.fold ⟨false, none⟩).evaluateM (.noting note) .zero)
        (f.apply (a.evaluate .zero) (b.evaluate .zero))
        [⟨.binary f, [a.evaluate .zero, b.evaluate .zero]⟩] :=
      hleft.bind (hright.bind (.binary f _ _))
    exact hvalue.bind (.pure _)

/-- Making an operand ready runs the calls without the variable, each of them once, and no
others. -/
theorem noted_foldM (a : Atom) :
    Noted note (a.foldM (.noting note)) a.fold (Call.constantRuns a.calls) := by
  induction a with
  | number z => exact .pure _
  | free => exact .pure _
  | unary f a ih =>
    rw [calls, Call.constantRuns_append]
    exact ih.bind (noted_unaryM f a)
  | binary f a b iha ihb =>
    rw [calls, Call.constantRuns_append, Call.constantRuns_append, List.append_assoc]
    exact iha.bind (ihb.bind (noted_binaryM f a b))

end Atom

end ComplexFormula
