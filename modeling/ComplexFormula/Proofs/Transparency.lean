import ComplexFormula.Proofs.Evaluation

/-!
Running constant calls ahead cannot be noticed. The operands that calls make, one around the other
to any depth, are just the operands as they are written, made ready all at once. So each call notes
a change exactly if the variable occurs in it, keeps its value exactly if it notes none, and has the
value that it has when everything in it is run anew.
-/

namespace ComplexFormula

/-- Each function is found by its own name. -/
theorem Builtin.ofName?_name (f : Builtin) : ofName? f.name = some f := by
  rcases f with f | f <;> cases f <;> decide +kernel

namespace Operand

/-- What a call notes of itself. -/
def memo? : Operand → Option Memo
  | unary _ _ memo => some memo
  | binary _ _ _ memo => some memo
  | _ => none

/-- An operand that is made of numbers and the variable by calls of functions, to any depth. -/
inductive Made : Operand → Prop
  | number (z : ComplexFloat) : Made (.number z)
  | free : Made .free
  | call {name : String} {arguments : List Operand} {position : Position} {a : Operand}
      (harguments : ∀ b ∈ arguments, Made b) (h : call name arguments position = .ok a) : Made a

end Operand

namespace Atom

theorem toAtom_fold (a : Atom) : a.fold.toAtom = a := by
  induction a with
  | number z => rfl
  | free => rfl
  | unary f a ih =>
    rw [fold_unary]
    split <;> rw [Operand.toAtom, ih]
  | binary f a b iha ihb =>
    rw [fold_binary]
    split <;> rw [Operand.toAtom, iha, ihb]

/-- A call keeps its value exactly if it notes no change. -/
theorem isSome_value?_of_mem_memo?_fold {a : Atom} {memo : Memo} (h : memo ∈ a.fold.memo?) :
    memo.value?.isSome = !memo.changing := by
  cases a with
  | number z => cases h
  | free => cases h
  | unary f a =>
    rw [fold_unary] at h
    split at h <;> (cases h; rfl)
  | binary f a b =>
    rw [fold_binary] at h
    split at h <;> (cases h; rfl)

/-- Calling on operands that are ready makes the call ready. -/
theorem call_map_fold (name : String) (arguments : List Atom) (position : Position) :
    Operand.call name (arguments.map fold) position = fold <$> call name arguments position := by
  unfold Operand.call call Builtin.call
  rcases Builtin.ofName? name with _ | f | f
  · rfl
  all_goals
    rcases arguments with _ | ⟨a, _ | ⟨b, _ | ⟨c, arguments⟩⟩⟩ <;>
      first | rfl | simp [Functor.map, Except.map]

/-- Every operand is made by calls once it is ready. -/
theorem made_fold (a : Atom) : a.fold.Made := by
  -- each call finds its function by the name that the function has
  have hcall {g : Atom} {f : Builtin} {arguments : List Atom}
      (hmade : ∀ b ∈ arguments, b.fold.Made) (h : call f.name arguments .unknown = .ok g) :
      g.fold.Made := by
    have hcalled : Operand.call f.name (arguments.map fold) .unknown = .ok g.fold := by
      rw [call_map_fold, h, Except.map_ok]
    refine .call ?_ hcalled
    intro b hb
    obtain ⟨c, hc, rfl⟩ := List.mem_map.1 hb
    exact hmade c hc
  induction a with
  | number z => exact .number z
  | free => exact .free
  | unary f a ih =>
    have h : call (Builtin.unary f).name [a] .unknown = .ok (.unary f a) :=
      Builtin.call_eq_ok_iff.2 (.inl ⟨f, a, Builtin.ofName?_name _, rfl, rfl⟩)
    exact hcall (by simpa using ih) h
  | binary f a b iha ihb =>
    have h : call (Builtin.binary f).name [a, b] .unknown = .ok (.binary f a b) :=
      Builtin.call_eq_ok_iff.2 (.inr ⟨f, a, b, Builtin.ofName?_name _, rfl, rfl⟩)
    exact hcall (by simpa using ⟨iha, ihb⟩) h

end Atom

/-- Every operand that calls make is an operand as it is written, made ready. -/
theorem Operand.Made.exists_fold {a : Operand} (h : a.Made) : ∃ b : Atom, b.fold = a := by
  induction h with
  | number z => exact ⟨.number z, rfl⟩
  | free => exact ⟨.free, rfl⟩
  | call _ h ih =>
    rcases Builtin.call_eq_ok_iff.1 h with ⟨f, a, -, rfl, rfl⟩ | ⟨f, a, b, -, rfl, rfl⟩
    · obtain ⟨a, rfl⟩ := ih a (by simp)
      exact ⟨.unary f a, rfl⟩
    · obtain ⟨a, rfl⟩ := ih a (by simp)
      obtain ⟨b, rfl⟩ := ih b (by simp)
      exact ⟨.binary f a b, rfl⟩

namespace Expression

/-- The value where the variable is `x`, with every operand run as it is written and no value that a
call keeps looked at. -/
def evaluateAnew (e : Expression) (x : ComplexFloat) : ComplexFloat :=
  (Layout.rootValue? Operator.apply
    (e.nodes.map (Node.map fun a => a.toAtom.evaluate x))).getD .zero

theorem evaluate_eq_rootValue? (e : Expression) (x : ComplexFloat) : e.evaluate x =
    (Layout.rootValue? Operator.apply
      (e.nodes.map (Node.map (Operand.evaluate x)))).getD .zero := by
  rw [evaluate, evaluateM, mapM_mapM_eq_map]
  rfl

theorem made_of_mem_nodes_ofNodes {nodes : List (Node Atom)} {a : Operand}
    (h : .leaf a ∈ (ofNodes nodes).nodes) : a.Made := by
  rw [nodes_ofNodes] at h
  obtain ⟨node, -, hnode⟩ := List.mem_map.1 h
  cases node with
  | leaf b =>
    cases hnode
    exact b.made_fold
  | branch o l r => cases hnode

/-- Only the operands' own values count, and these are the same. -/
theorem evaluate_eq_evaluateAnew {e : Expression} (h : ∀ a, .leaf a ∈ e.nodes → a.Made)
    (x : ComplexFloat) : e.evaluate x = e.evaluateAnew x := by
  rw [evaluate_eq_rootValue?, evaluateAnew]
  congr 2
  refine List.map_congr_left fun node hnode => ?_
  cases node with
  | leaf a =>
    obtain ⟨b, rfl⟩ := (h a hnode).exists_fold
    rw [Node.map, Node.map, b.evaluate_fold, b.toAtom_fold]
  | branch o l r => rfl

end Expression

/-- Whatever calls have made has the value that it has as it is written; a call notes a change
exactly if the variable occurs in it, and keeps its value exactly if it notes none. So a formula has
the values that it has without anything being run ahead. -/
theorem Operand.evaluate_eq_evaluate_toAtom :
    (∀ a : Operand, a.Made →
      (a.isChanging = true ↔ a.toAtom.hasVariable = true) ∧
      (∀ memo ∈ a.memo?, memo.changing = a.isChanging ∧ memo.value?.isSome = !memo.changing) ∧
      ∀ x, a.evaluate x = a.toAtom.evaluate x) ∧
    ∀ (f : Formula) (e : Expression), f.build = .ok e →
      (∀ a, .leaf a ∈ e.nodes → a.Made) ∧ ∀ x, e.evaluate x = e.evaluateAnew x := by
  refine ⟨?_, ?_⟩
  · intro a ha
    obtain ⟨b, rfl⟩ := ha.exists_fold
    refine ⟨?_, ?_, ?_⟩
    · rw [b.isChanging_fold, b.toAtom_fold]
    · intro memo hmemo
      refine ⟨?_, Atom.isSome_value?_of_mem_memo?_fold hmemo⟩
      generalize b.fold = a at hmemo
      cases a <;> cases hmemo <;> rfl
    · intro x
      rw [b.evaluate_fold, b.toAtom_fold]
  · intro f e h
    obtain ⟨arena, -, rfl⟩ := Except.map_eq_ok_iff.1 h
    have hmade : ∀ a, .leaf a ∈ (Expression.ofNodes arena.breadthFirst).nodes → a.Made :=
      fun _ ha => Expression.made_of_mem_nodes_ofNodes ha
    exact ⟨hmade, Expression.evaluate_eq_evaluateAnew hmade⟩

/-- In `pow(sin(i), x)` the inner call keeps its value, and the outer call is run anew. -/
theorem Operand.evaluate_eq_evaluate_toAtom_power :
    (∃ a : Operand, a.Made ∧
      a = .binary .pow (.unary .sin (.number .imaginaryUnit)
        ⟨false, some ComplexFloat.imaginaryUnit.sin⟩) .free ⟨true, none⟩ ∧
      a.toAtom.hasVariable = true ∧
      ∀ x, a.evaluate x =
        (Atom.binary .pow (.unary .sin (.number .imaginaryUnit)) .free).evaluate x) ∧
    ∃ e, (Formula.mk "Pow(Sin(i), x)" 2).build = .ok e ∧ ∀ x, e.evaluate x = e.evaluateAnew x := by
  have hsin : call "Sin" [.number .imaginaryUnit] .unknown =
      .ok (.unary .sin (.number .imaginaryUnit) ⟨false, some ComplexFloat.imaginaryUnit.sin⟩) :=
    Builtin.call_eq_ok_iff.2 (.inl ⟨.sin, _, by decide +kernel, rfl, rfl⟩)
  have hpow : call "Pow" [.unary .sin (.number .imaginaryUnit)
        ⟨false, some ComplexFloat.imaginaryUnit.sin⟩, .free] .unknown = .ok _ :=
    Builtin.call_eq_ok_iff.2 (.inr ⟨.pow, _, _, by decide +kernel, rfl, rfl⟩)
  have hinner := Made.call (by simpa using .number _) hsin
  have hmade := Made.call (by simpa using ⟨hinner, .free⟩) hpow
  obtain ⟨hchanging, -, hvalue⟩ := evaluate_eq_evaluate_toAtom.1 _ hmade
  have htree : (Formula.mk "Pow(Sin(i), x)" 2).tree =
      .ok (.leaf (.binary .pow (.unary .sin (.number .imaginaryUnit)) .free)) := by
    decide +kernel
  have hbuild := Formula.build_of_tree htree
  exact ⟨⟨_, hmade, rfl, hchanging.1 rfl, hvalue⟩, _, hbuild,
    (evaluate_eq_evaluate_toAtom.2 _ _ hbuild).2⟩

end ComplexFormula
