import ComplexFormula.Proofs.Evaluation
import ComplexFormula.Proofs.Ordering
import Mathlib.Data.List.Perm.Basic

/-!
The operands of a formula all the way from its tokens to the leaves of its expression. Postfix order
leaves them as they stand, the tree has one leaf for each of them, and laying the tree out level by
level only changes their order. So each operand that is read comes to just one leaf.
-/

namespace ComplexFormula

variable {α β : Type}

/-- The operand that a term is. -/
def Term.operand? : Term α → Option α
  | operand a => some a
  | operator _ => none

theorem Token.operand?_eq_some_iff {t : Token α} {a : α} :
    t.operand? = some a ↔ t = .operand a := by
  cases t <;> simp [operand?]

/-- The operands among some tokens. -/
def Token.operands (ts : List (Token α)) : List α :=
  ts.filterMap operand?

/-- Arranging tokens leaves the operands in their order. -/
theorem Postfix.operands_of_order? {limit : Nat} {waiting : List Operator}
    {frames : List (List Operator)} {ts : List (Token α)} {terms : List (Term α)}
    (h : order? limit waiting frames ts = some terms) :
    terms.filterMap Term.operand? = Token.operands ts := by
  have operators (os : List Operator) :
      (os.map (Term.operator (α := α))).filterMap Term.operand? = [] := by
    simp [List.filterMap_map, Term.operand?, Function.comp_def]
  fun_induction order? limit waiting frames ts generalizing terms with
  | case1 waiting =>
    cases h
    exact operators waiting
  | case2 | case5 | case7 => cases h
  | case3 waiting frames a rest ih =>
    obtain ⟨terms, hterms, rfl⟩ := Option.map_eq_some_iff.1 h
    exact congrArg (a :: ·) (ih hterms)
  | case4 waiting frames o rest ih =>
    obtain ⟨terms, hterms, rfl⟩ := Option.map_eq_some_iff.1 h
    rw [List.filterMap_append, operators, List.nil_append]
    exact ih hterms
  | case6 waiting frames rest _ ih => exact ih h
  | case8 waiting rest outer frames ih =>
    obtain ⟨terms, hterms, rfl⟩ := Option.map_eq_some_iff.1 h
    rw [List.filterMap_append, operators, List.nil_append]
    exact ih hterms

/-- A `*` that is not written is no operand. -/
theorem Lexeme.operands_multiply (ls : List Lexeme) :
    Token.operands ((multiply ls).map (·.item)) = Token.operands (ls.map (·.item)) := by
  fun_induction multiply ls with
  | case1 | case2 => rfl
  | case3 left right rest _ ih | case4 left right rest _ ih =>
    simp only [Token.operands, List.map_cons, List.filterMap_cons, times, Token.operand?] at ih ⊢
    rw [ih]

/-! ### Leaves -/

/-- The operands of a tree from left to right. -/
def Tree.leaves : Tree α → List α
  | leaf a => [a]
  | branch _ l r => l.leaves ++ r.leaves

/-- The operands stand in postorder as they do in the tree. -/
theorem Tree.operands_postorder (t : Tree α) : t.postorder.filterMap Term.operand? = t.leaves := by
  induction t with
  | leaf a => rfl
  | branch o l r ihl ihr =>
    rw [postorder, List.filterMap_append, List.filterMap_append, ihl, ihr]
    exact List.append_nil _

/-- The operand at a node. -/
def Node.operand? : Node α → Option α
  | leaf a => some a
  | branch _ _ _ => none

/-- The operands at some nodes, in their order. -/
def Node.operands (nodes : List (Node α)) : List α :=
  nodes.filterMap operand?

theorem Node.operands_map (f : α → β) (nodes : List (Node α)) :
    operands (nodes.map (map f)) = (operands nodes).map f := by
  rw [operands, operands, List.filterMap_map, List.map_filterMap]
  congr 1
  funext node
  cases node <;> rfl

/-- What is laid out has the operands of the trees in the queue, each just as often. -/
theorem Layout.operands_breadthFirst_perm (next : Nat) (queue : List (Tree α)) :
    (Node.operands (breadthFirst next queue)).Perm (queue.flatMap Tree.leaves) := by
  fun_induction breadthFirst next queue with
  | case1 => exact .nil
  | case2 next a queue ih => exact ih.cons a
  | case3 next o l r queue ih =>
    have hsides : [l, r].flatMap Tree.leaves = (Tree.branch o l r).leaves := by
      simp [Tree.leaves]
    rw [List.flatMap_append, hsides] at ih
    exact ih.trans List.perm_append_comm

namespace Expression

/-- The operands at the nodes of an expression. -/
def operands (e : Expression) : List Operand :=
  Node.operands e.nodes

theorem operands_ofTree_perm (t : Tree Atom) :
    (ofTree t).operands.Perm (t.leaves.map Atom.fold) := by
  rw [operands, ofTree, nodes_ofNodes, Node.operands_map, Layout.ofTree]
  have hleaves := Layout.operands_breadthFirst_perm 1 [t]
  rw [List.flatMap_singleton] at hleaves
  exact hleaves.map _

end Expression

/-- The operands at the leaves of an expression are those of the tokens of its formula, made ready
for evaluation. -/
theorem Formula.operands_of_build {f : Formula} {e : Expression} (h : f.build = .ok e) :
    ∃ ls, f.lexemes = .ok ls ∧
      e.operands.Perm ((Token.operands (ls.map (·.item))).map Atom.fold) := by
  rw [build_eq] at h
  obtain ⟨t, ht, rfl⟩ := Except.map_eq_ok_iff.1 h
  obtain ⟨ls, hls, horder⟩ := tree_eq_ok_iff.1 ht
  refine ⟨ls, hls, ?_⟩
  rw [← Postfix.operands_of_order? horder, t.operands_postorder]
  exact Expression.operands_ofTree_perm t

end ComplexFormula
