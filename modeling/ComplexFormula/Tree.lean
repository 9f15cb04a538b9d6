import ComplexFormula.ParseError
import ComplexFormula.Token

/-!
The tree of a formula: operands at the leaves and an operator with two sides at each branch. A run
of terms in postfix order builds it on a stack.
-/

namespace ComplexFormula

/-- A tree with operands at its leaves. -/
inductive Tree (α : Type)
  | leaf (a : α)
  | branch (o : Operator) (left right : Tree α)
  deriving DecidableEq, Repr

namespace Tree

variable {α β : Type}

/-- The number of leaves and branches. -/
def size : Tree α → Nat
  | leaf _ => 1
  | branch _ l r => l.size + r.size + 1

/-- The value of a tree, given those of its leaves and what an operator makes of two values. -/
def fold (leafValue : α → β) (apply : Operator → β → β → β) : Tree α → β
  | leaf a => leafValue a
  | branch o l r => apply o (l.fold leafValue apply) (r.fold leafValue apply)

/-- The terms of a tree, each operator behind its two sides. -/
def postorder : Tree α → List (Term α)
  | leaf a => [.operand a]
  | branch o l r => l.postorder ++ r.postorder ++ [.operator o]

theorem size_pos (t : Tree α) : 0 < t.size := by
  cases t <;> simp [size]

/-- There is one term for each leaf and each branch. -/
theorem length_postorder (t : Tree α) : t.postorder.length = t.size := by
  induction t with
  | leaf a => rfl
  | branch o l r hl hr => simp [postorder, size, hl, hr]; omega

/-- A tree that waits for an operator, and where the term at its root starts. -/
structure Pending (α : Type) where
  tree : Tree α
  start : Nat

/-- Builds on the trees that wait, the last one first. An operator joins the last two, and at the
end a single tree has to be left; the second one from the bottom is an operand too many. -/
def build (stack : List (Pending α)) : List (Spanned (Term α)) → Except ParseError (Tree α)
  | [] =>
    match stack.reverse with
    | [] => .error ⟨.missingOperand, .unknown⟩
    | [root] => .ok root.tree
    | _ :: extra :: _ => .error ⟨.extraOperand, .offset extra.start⟩
  | ⟨.operand a, start, _⟩ :: rest => build (⟨leaf a, start⟩ :: stack) rest
  | ⟨.operator o, start, _⟩ :: rest =>
    match stack with
    | right :: left :: below => build (⟨branch o left.tree right.tree, start⟩ :: below) rest
    | _ => .error ⟨.missingOperand, .offset start⟩

/-- The tree of a run of terms in postfix order. -/
def ofPostfix (terms : List (Spanned (Term α))) : Except ParseError (Tree α) :=
  build [] terms

end Tree

end ComplexFormula
