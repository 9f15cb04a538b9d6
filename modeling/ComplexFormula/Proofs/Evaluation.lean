import ComplexFormula.Proofs.Folding
import ComplexFormula.Proofs.Success
import ComplexFormula.Proofs.Unfolding

/-!
Evaluation of an expression in one pass from its last node to its first. The pass gives what a stack
machine gives on the terms of the formula, and what evaluation side by side gives on the tree that
the arena holds: when a branch is reached, the values of its sides are in their slots for good.
-/

namespace ComplexFormula

variable {α β : Type}

/-! ### A stack machine on terms -/

namespace Term

variable (value : α → β) (apply : Operator → β → β → β)

/-- An operand puts its value on the stack, and an operator puts its result in place of the two
values on top, the right one of which came last. -/
def step : List β → Term α → Option (List β)
  | stack, .operand a => some (value a :: stack)
  | right :: left :: below, .operator o => some (apply o left right :: below)
  | _, .operator _ => none

/-- The stack behind a run of terms. -/
def run (stack : List β) (terms : List (Term α)) : Option (List β) :=
  terms.foldlM (step value apply) stack

/-- The postorder of a tree leaves the value of that tree. -/
theorem run_postorder (t : Tree α) (stack : List β) :
    run value apply stack t.postorder = some (t.fold value apply :: stack) := by
  induction t generalizing stack with
  | leaf a => rfl
  | branch o l r hl hr =>
    simp only [run] at hl hr ⊢
    rw [Tree.postorder, List.foldlM_append, List.foldlM_append, hl, Option.bind_eq_bind,
      Option.bind_some, hr]
    rfl

end Term

/-! ### One pass over the nodes -/

namespace Layout

variable {apply : Operator → β → β → β} {nodes : List (Node β)}

/-- The slots when the nodes from the place `first` on are done. -/
def valuesFrom (apply : Operator → β → β → β) (nodes : List (Node β)) (first : Nat) :
    Array (Option β) :=
  (nodes.zipIdx.drop first).foldr
    (fun (node, place) known => known.setIfInBounds place (node.value? apply known))
    (Array.replicate nodes.length none)

/-- The node at `first` is done when all behind it are. -/
theorem valuesFrom_of_lt {first : Nat} (h : first < nodes.length) :
    valuesFrom apply nodes first = (valuesFrom apply nodes (first + 1)).setIfInBounds first
      (nodes[first].value? apply (valuesFrom apply nodes (first + 1))) := by
  rw [valuesFrom, List.drop_eq_getElem_cons (by simpa using h)]
  simp [valuesFrom]

theorem size_valuesFrom (first : Nat) : (valuesFrom apply nodes first).size = nodes.length := by
  rw [valuesFrom]
  induction nodes.zipIdx.drop first with
  | nil => simp
  | cons _ _ ih => simpa using ih

/-- Once a place is done, its slot holds the value of the tree that is found there. -/
theorem valuesFrom_of_unfolds (hforward : Node.Forward nodes) {first place : Nat} {t : Tree β}
    (ht : Node.Unfolds nodes place t) (hplace : first ≤ place) :
    (valuesFrom apply nodes first)[place]? = some (some (t.fold id apply)) := by
  have hlt := ht.lt_length
  induction hgap : nodes.length - first generalizing first place t with
  | zero => omega
  | succ gap ih =>
    rw [valuesFrom_of_lt (by omega)]
    obtain rfl | hne := Nat.eq_or_lt_of_le hplace
    · rw [Array.getElem?_setIfInBounds_self_of_lt (by rwa [size_valuesFrom])]
      cases ht with
      | leaf h => simp [(List.getElem?_eq_some_iff.1 h).2, Node.value?, Tree.fold]
      | branch h hl hr =>
        obtain ⟨hltl, hltr⟩ := hforward _ _ _ _ h
        rw [(List.getElem?_eq_some_iff.1 h).2, Node.value?,
          ih hl hltl hl.lt_length (by omega), ih hr hltr hr.lt_length (by omega)]
        rfl
    · rw [Array.getElem?_setIfInBounds_ne (by omega)]
      exact ih ht hne hlt (by omega)

end Layout

namespace Expression

/-- Without notes being taken, operands are replaced one by one. -/
theorem mapM_mapM_eq_map (f : α → Id β) (nodes : List (Node α)) :
    nodes.mapM (Node.mapM f) = (pure (nodes.map (Node.map f)) : Id (List (Node β))) := by
  have h : Node.mapM f = fun node => (pure (node.map f) : Id (Node β)) := by
    funext node
    cases node <;> rfl
  rw [h, List.mapM_pure]

theorem nodes_ofNodes (nodes : List (Node Atom)) :
    (ofNodes nodes).nodes = nodes.map (Node.map Atom.fold) := by
  rw [ofNodes, ofNodesM, mapM_mapM_eq_map]
  rfl

/-- The slots of an evaluation at `x`, when the nodes from `first` on are done. -/
def slots (e : Expression) (x : ComplexFloat) (first : Nat) : Array (Option ComplexFloat) :=
  Layout.valuesFrom Operator.apply (e.nodes.map (Node.map (Operand.evaluate x))) first

/-- The value is what the slot of the root holds when all nodes are done. -/
theorem evaluate_eq_slots (e : Expression) (x : ComplexFloat) :
    e.evaluate x = (e.slots x 0)[0]?.join.getD .zero := by
  rw [evaluate, evaluateM, mapM_mapM_eq_map]
  rfl

/-- Once a place is done, its slot holds the value of the tree that is found there. -/
theorem slots_of_unfolds {t : Tree Atom} {s : Tree Operand} {x : ComplexFloat} {first place : Nat}
    (hs : Node.Unfolds (ofTree t).nodes place s) (hplace : first ≤ place) :
    ((ofTree t).slots x first)[place]? =
      some (some (s.fold (Operand.evaluate x) Operator.apply)) := by
  have hforward : Node.Forward (ofTree t).nodes := by
    rw [ofTree, nodes_ofNodes]
    exact (Layout.forward_ofTree t).map _
  rw [slots, Layout.valuesFrom_of_unfolds (hforward.map _) (hs.map _) hplace, Tree.fold_map]
  rfl

/-- The tree of operands that an expression was made from is found at its front. -/
theorem unfolds_ofTree (t : Tree Atom) :
    Node.Unfolds (ofTree t).nodes 0 (t.map Atom.fold) := by
  rw [ofTree, nodes_ofNodes]
  exact (Layout.unfolds_ofTree t).map _

theorem exists_unfolds_ofTree {t : Tree Atom} {place : Nat} {node : Node Operand}
    (h : (ofTree t).nodes[place]? = some node) : ∃ s, Node.Unfolds (ofTree t).nodes place s := by
  have hplace := (List.getElem?_eq_some_iff.1 h).1
  rw [ofTree, nodes_ofNodes, List.length_map] at hplace
  obtain ⟨s, hs⟩ := Layout.exists_unfolds_ofTree hplace
  rw [ofTree, nodes_ofNodes]
  exact ⟨_, hs.map _⟩

/-- Evaluation of an expression is evaluation of its tree, side by side. -/
theorem evaluate_ofTree (t : Tree Atom) (x : ComplexFloat) :
    (ofTree t).evaluate x = t.fold (Atom.evaluate x) Operator.apply := by
  have hfold : Operand.evaluate x ∘ Atom.fold = Atom.evaluate x :=
    funext fun a => a.evaluate_fold x
  rw [evaluate_eq_slots, slots_of_unfolds (unfolds_ofTree t) (Nat.le_refl 0), Tree.fold_map, hfold]
  rfl

/-- The sides of a branch have their values when the branch is reached, and keep them. -/
theorem slots_of_branch {t : Tree Atom} {place l r : Nat} {o : Operator}
    (h : (ofTree t).nodes[place]? = some (.branch o l r)) (x : ComplexFloat) :
    ∃ left right, ((ofTree t).slots x (place + 1))[l]? = some (some left) ∧
      ((ofTree t).slots x (place + 1))[r]? = some (some right) ∧
      ((ofTree t).slots x 0)[l]? = some (some left) ∧
      ((ofTree t).slots x 0)[r]? = some (some right) ∧
      ((ofTree t).slots x 0)[place]? = some (some (o.apply left right)) := by
  have hforward : Node.Forward (ofTree t).nodes := by
    rw [ofTree, nodes_ofNodes]
    exact (Layout.forward_ofTree t).map _
  obtain ⟨hltl, hltr⟩ := hforward _ _ _ _ h
  obtain ⟨s, hs⟩ := exists_unfolds_ofTree h
  have hroot := slots_of_unfolds (x := x) hs (Nat.zero_le place)
  cases hs with
  | leaf h' => simp [h] at h'
  | branch h' hl hr =>
    obtain ⟨rfl, rfl, rfl⟩ : _ ∧ _ ∧ _ := by simpa [h] using h'
    exact ⟨_, _, slots_of_unfolds hl hltl, slots_of_unfolds hr hltr,
      slots_of_unfolds hl (Nat.zero_le l), slots_of_unfolds hr (Nat.zero_le r), hroot⟩

/-- Evaluation by slots gives the value that a stack machine leaves behind the terms, and the value
of the tree that the arena holds. A branch is evaluated when the values of its sides are there. -/
theorem evaluate_eq_run_and_fold {terms : List (Spanned (Term Atom))} {a : Arena Atom}
    (h : Arena.ofPostfix terms = .ok a) (x : ComplexFloat) :
    let e := ofNodes a.breadthFirst
    Term.run (Atom.evaluate x) Operator.apply [] (terms.map (·.item)) = some [e.evaluate x] ∧
    (∃ t, Node.Unfolds a.nodes.toList a.root t) ∧
    (∀ t, Node.Unfolds a.nodes.toList a.root t →
      t.fold (Atom.evaluate x) Operator.apply = e.evaluate x) ∧
    ∀ place o l r, e.nodes[place]? = some (.branch o l r) →
      ∃ left right, (e.slots x (place + 1))[l]? = some (some left) ∧
        (e.slots x (place + 1))[r]? = some (some right) ∧
        (e.slots x 0)[l]? = some (some left) ∧ (e.slots x 0)[r]? = some (some right) ∧
        (e.slots x 0)[place]? = some (some (o.apply left right)) := by
  rw [Arena.ofPostfix_eq] at h
  obtain ⟨t, ht, rfl⟩ := Except.map_eq_ok_iff.1 h
  intro e
  have he : e = ofTree t := congrArg ofNodes (Arena.breadthFirst_ofTree t)
  have hunfolds := Arena.unfolds_ofTree t
  rw [he, evaluate_ofTree, Tree.ofPostfix_eq_ok_iff.1 ht]
  refine ⟨Term.run_postorder _ _ t [], ⟨t, hunfolds⟩, ?_, ?_⟩
  · intro s hs
    rw [hs.unique hunfolds]
  · intro place o l r hbranch
    exact slots_of_branch hbranch x

theorem evaluate_eq_run_and_fold_difference :
    ∃ a, Arena.ofPostfix
        [⟨.operand .free, 0, 1⟩, ⟨.operand (.unary .sin .free), 2, 8⟩, ⟨.operator .sub, 1, 2⟩] =
          .ok a ∧
      ∀ x, (ofNodes a.breadthFirst).evaluate x = x - x.sin := by
  have h : Arena.ofPostfix (α := Atom)
      [⟨.operand .free, 0, 1⟩, ⟨.operand (.unary .sin .free), 2, 8⟩, ⟨.operator .sub, 1, 2⟩] =
        .ok ⟨#[.leaf .free, .leaf (.unary .sin .free), .branch .sub 0 1], 2⟩ := rfl
  refine ⟨_, h, ?_⟩
  intro x
  have hrun := (evaluate_eq_run_and_fold h x).1
  exact (List.singleton_inj.1 (Option.some.inj hrun)).symm

end Expression

end ComplexFormula
