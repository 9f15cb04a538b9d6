import ComplexFormula.Binary64
import ComplexFormula.Proofs.Transparency
import Mathlib.Data.Complex.Basic

/-!
Expressions read in a field, where nothing is rounded. What a literal, a function or a power stands
for is left open; sums, differences, products and quotients are those of the field.
-/

namespace ComplexFormula

/-- What stands for the numbers, the variable, the functions and the powers of an expression. -/
structure Interpretation (K : Type) [Field K] where
  number : ComplexFloat → K
  free : K
  unary : Builtin.Unary → K → K
  binary : Builtin.Binary → K → K → K
  pow : K → K → K
  number_minusOne : number .minusOne = -1

namespace Interpretation

variable {K : Type} [Field K] (I : Interpretation K)

/-- What stands for an operand. -/
def atom : Atom → K
  | .number z => I.number z
  | .free => I.free
  | .unary f a => I.unary f (atom a)
  | .binary f a b => I.binary f (atom a) (atom b)

/-- What stands for an operator. -/
def apply : Operator → K → K → K
  | .pow, a, b => I.pow a b
  | .mul, a, b => a * b
  | .div, a, b => a / b
  | .sub, a, b => a - b
  | .add, a, b => a + b

/-- What stands for an expression, found in one pass over its nodes as its value is. -/
def value (e : Expression) : K :=
  (Layout.rootValue? I.apply (e.nodes.map (Node.map fun a => I.atom a.toAtom))).getD 0

/-- An expression stands for what its tree stands for, side by side. -/
theorem value_ofTree (t : Tree Atom) : I.value (.ofTree t) = t.fold I.atom I.apply := by
  have hnodes : (Expression.ofTree t).nodes.map (Node.map fun a => I.atom a.toAtom) =
      (Layout.ofTree t).map (Node.map I.atom) := by
    rw [Expression.ofTree, Expression.nodes_ofNodes, List.map_map]
    refine List.map_congr_left fun node _ => ?_
    cases node with
    | leaf a => exact congrArg (Node.leaf ∘ I.atom) a.toAtom_fold
    | branch o l r => rfl
  have hforward := (Layout.forward_ofTree t).map I.atom
  have hunfolds := (Layout.unfolds_ofTree t).map I.atom
  have hroot : (Layout.values I.apply ((Layout.ofTree t).map (Node.map I.atom)))[0]? =
      some (some ((t.map I.atom).fold id I.apply)) :=
    Layout.valuesFrom_of_unfolds hforward hunfolds (Nat.le_refl 0)
  rw [value, hnodes, Layout.rootValue?, hroot, Tree.fold_map]
  rfl

end Interpretation

/-! ### Exact complex numbers -/

/-- The exact value of a float. An infinity and NaN have none, and 0 stands in for it. -/
noncomputable def Binary64.exact (f : Float) : ℝ :=
  match ofFloat? f with
  | some b => b.signed * 2 ^ b.exponent
  | none => 0

theorem Binary64.exact_zero : exact 0 = 0 := by
  have hbits : ofFloat? 0 = some ⟨false, 0, -1074⟩ := by decide +kernel
  simp [exact, hbits, signed]

theorem Binary64.exact_neg_one : exact (-1) = -1 := by
  have hbits : ofFloat? (-1) = some ⟨true, 2 ^ 52, -52⟩ := by decide +kernel
  simp [exact, hbits, signed]
  norm_num

/-- Numbers as they are written, the variable at `x`, and any functions for the calls and powers. -/
noncomputable def Interpretation.exact (unary : Builtin.Unary → ℂ → ℂ)
    (binary : Builtin.Binary → ℂ → ℂ → ℂ) (pow : ℂ → ℂ → ℂ) (x : ℂ) : Interpretation ℂ where
  number z := ⟨Binary64.exact z.re, Binary64.exact z.im⟩
  free := x
  unary := unary
  binary := binary
  pow := pow
  number_minusOne := by
    rw [ComplexFloat.minusOne, Binary64.exact_zero, Binary64.exact_neg_one]
    simp [Complex.ext_iff]

end ComplexFormula
