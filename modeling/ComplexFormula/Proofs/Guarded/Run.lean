import ComplexFormula.Proofs.Evaluation
import ComplexFormula.Proofs.Guarded.Arena

/-!
A run from the text to the value that takes nothing for granted. It is never broken, and it ends as
the run without guards does: with the same error or with the same value. Sums need no guard, since
each counts glyphs, tokens or nodes that are there.
-/

namespace ComplexFormula

/-! ### Evaluation in slots that all hold a number -/

namespace Node

/-- Puts the value of the node at a place into the slot of that place. -/
def fill (x : ComplexFloat) (node : Node OpenOperand) (place : Nat) (values : Array ComplexFloat) :
    Guarded (Array ComplexFloat) := do
  let value ← match node with
    | leaf a => a.evaluate x
    | branch o l r => do
      let left ← Guarded.require .valueOutside values[l]?
      let right ← Guarded.require .valueOutside values[r]?
      pure (o.apply left right)
  if place < values.size then pure (values.setIfInBounds place value)
  else .error (.broken .valueOutside)

/-- The slots when the nodes from the place `first` on are done. -/
def fillFrom (x : ComplexFloat) (nodes : List (Node OpenOperand)) (first : Nat) :
    Guarded (Array ComplexFloat) :=
  (nodes.zipIdx.drop first).foldrM (fun (node, place) values => node.fill x place values)
    (Array.replicate nodes.length .zero)

/-- The value of the root where the variable is `x`. -/
def evaluateOpen (x : ComplexFloat) (nodes : List (Node OpenOperand)) : Guarded ComplexFloat := do
  let values ← fillFrom x nodes 0
  Guarded.require .noNodes values[0]?

/-- There is a slot for each node, and from the place `first` on each holds the value of the tree
that is found at its place. -/
structure Filled (nodes : List (Node Atom)) (x : ComplexFloat) (first : Nat)
    (values : Array ComplexFloat) : Prop where
  size_eq : values.size = nodes.length
  value_eq {place : Nat} {t : Tree Atom} (hplace : first ≤ place) (ht : Unfolds nodes place t) :
    values[place]? = some (t.fold (Atom.evaluate x) Operator.apply)

variable {nodes : List (Node Atom)} {x : ComplexFloat} {first : Nat} {values : Array ComplexFloat}

/-- The sides of a branch have their values when the branch is reached. -/
theorem Filled.fill_eq (h : Filled nodes x (first + 1) values) (hforward : Forward nodes)
    {s : Tree Atom} (hs : Unfolds nodes first s) {node : Node Atom}
    (hnode : nodes[first]? = some node) :
    (node.map Atom.opened).fill x first values =
      .ok (values.setIfInBounds first (s.fold (Atom.evaluate x) Operator.apply)) := by
  have hsize : first < values.size := h.size_eq ▸ hs.lt_length
  cases hs with
  | @leaf _ a hleaf =>
    obtain rfl : node = .leaf a := by simpa [hnode] using hleaf
    rw [map, fill, Atom.opened, Operand.evaluate_opened, a.evaluate_fold]
    exact if_pos hsize
  | @branch _ o l r left right hbranch hl hr =>
    obtain rfl : node = .branch o l r := by simpa [hnode] using hbranch
    obtain ⟨hltl, hltr⟩ := hforward _ _ _ _ hbranch
    rw [map, fill, h.value_eq hltl hl, h.value_eq hltr hr]
    exact if_pos hsize

/-- One more slot is filled, and the others stay as they are. -/
theorem Filled.set (h : Filled nodes x (first + 1) values) {s : Tree Atom}
    (hs : Unfolds nodes first s) : Filled nodes x first
      (values.setIfInBounds first (s.fold (Atom.evaluate x) Operator.apply)) where
  size_eq := by rw [Array.size_setIfInBounds, h.size_eq]
  value_eq {place t} hplace ht := by
    obtain rfl | hlt := Nat.eq_or_lt_of_le hplace
    · rw [Array.getElem?_setIfInBounds_self_of_lt (h.size_eq ▸ hs.lt_length), hs.unique ht]
    · rw [Array.getElem?_setIfInBounds_ne (Nat.ne_of_lt hlt)]
      exact h.value_eq hlt ht

/-- All slots are filled, from the last to the first. -/
theorem exists_fillFrom (hforward : Forward nodes)
    (hall : ∀ place < nodes.length, ∃ t, Unfolds nodes place t) (x : ComplexFloat)
    {first : Nat} (hfirst : first ≤ nodes.length) :
    ∃ values, fillFrom x (nodes.map (Node.map Atom.opened)) first = .ok values ∧
      Filled nodes x first values := by
  induction hgap : nodes.length - first generalizing first with
  | zero =>
    obtain rfl : first = nodes.length := by omega
    refine ⟨Array.replicate nodes.length .zero, ?_, ?_, ?_⟩
    · rw [fillFrom, List.drop_of_length_le (by simp)]
      simp [pure, Except.pure]
    · exact Array.size_replicate
    · intro place t hplace ht
      exact absurd ht.lt_length (Nat.not_lt.2 hplace)
  | succ gap ih =>
    obtain ⟨s, hs⟩ := hall first (by omega)
    have hlt : first < nodes.length := hs.lt_length
    obtain ⟨values, hvalues, hfilled⟩ := ih hlt (by omega)
    refine ⟨_, ?_, hfilled.set hs⟩
    rw [fillFrom] at hvalues ⊢
    rw [List.drop_eq_getElem_cons (by simpa using hlt), List.foldrM_cons, hvalues, Except.ok_bind]
    simpa using hfilled.fill_eq hforward hs (List.getElem?_eq_getElem hlt)

/-- The nodes that a tree is laid out in have its value. -/
theorem evaluateOpen_ofTree (x : ComplexFloat) (t : Tree Atom) :
    evaluateOpen x ((Layout.ofTree t).map (Node.map Atom.opened)) =
      .ok ((Expression.ofTree t).evaluate x) := by
  obtain ⟨values, hvalues, hfilled⟩ := exists_fillFrom (Layout.forward_ofTree t)
    (fun _ => Layout.exists_unfolds_ofTree) x (Nat.zero_le _)
  rw [evaluateOpen, hvalues, Expression.evaluate_ofTree, Except.ok_bind,
    hfilled.value_eq (Nat.le_refl 0) (Layout.unfolds_ofTree t), Guarded.require]

end Node

/-! ### The whole run -/

namespace Formula

/-- The nodes of the formula, with a guard at each step that takes something for granted. -/
def guardedBuild (f : Formula) : Guarded (List (Node OpenOperand)) := do
  let lexemes ← Cursor.lex f.depthLimit f.depthLimit (glyphs f.text)
  let tokens ← Postfix.convert f.depthLimit [] 0 lexemes
  let arena ← Arena.buildTokens #[] [] tokens
  let nodes ← Arena.layOutOnce (arena.nodes.map some) 0 [arena.root]
  if nodes.isEmpty then .error (.broken .noNodes) else pure nodes

/-- The value of the formula where the variable is `x`, found in the same way. -/
def guardedRun (f : Formula) (x : ComplexFloat) : Guarded ComplexFloat := do
  Node.evaluateOpen x (← f.guardedBuild)

/-- The tokens are put in the order of the terms. -/
theorem convert_opened (limit : Nat) (ls : List Lexeme) :
    Postfix.convert limit [] 0 (ls.map Lexeme.opened) = Guarded.lift
      ((fun terms => Postfix.standing (terms.map (Spanned.map (Term.map Atom.opened)))) <$>
        Postfix.ofTokens limit ls) := by
  refine (Postfix.convert_eq limit .empty _).trans ?_
  refine (congrArg _ (congrArg _ (Postfix.arrange_map Atom.opened limit [] [] ls))).trans ?_
  rw [Postfix.ofTokens]
  cases Postfix.arrange limit [] [] ls <;> rfl

/-- The terms make the arena of their tree. -/
theorem buildTokens_opened (terms : List (Spanned (Term Atom))) :
    Arena.buildTokens #[] []
        (Postfix.standing (terms.map (Spanned.map (Term.map Atom.opened)))) =
      Guarded.lift ((fun t => Arena.ofTree (t.map Atom.opened)) <$> Tree.ofPostfix terms) := by
  have hbuild := Tree.build_map Atom.opened [] terms
  rw [List.map_nil] at hbuild
  rw [Arena.buildTokens_standing, ← Arena.ofPostfix, Arena.ofPostfix_eq, Tree.ofPostfix, hbuild,
    Tree.ofPostfix]
  cases Tree.build [] terms <;> rfl

theorem guardedBuild_eq_tree (f : Formula) : f.guardedBuild =
    Guarded.lift ((fun t => (Layout.ofTree t).map (Node.map Atom.opened)) <$> f.tree) := by
  rw [guardedBuild, tree, terms, lexemes, Lexeme.ofText, Cursor.guards_lex]
  cases Lexeme.read f.depthLimit f.depthLimit (glyphs f.text) with
  | error e => rfl
  | ok ls =>
    simp only [Except.map_ok, Guarded.lift_ok, Except.ok_bind, convert_opened]
    cases Postfix.ofTokens f.depthLimit ls with
    | error e => rfl
    | ok terms =>
      simp only [Except.map_ok, Guarded.lift_ok, Except.ok_bind, buildTokens_opened]
      cases Tree.ofPostfix terms with
      | error e => rfl
      | ok t =>
        have hnodes : Layout.ofTree (t.map Atom.opened) =
            (Layout.ofTree t).map (Node.map Atom.opened) :=
          Layout.breadthFirst_map Atom.opened 1 [t]
        have hne : (Layout.ofTree (t.map Atom.opened)).isEmpty = false :=
          List.isEmpty_eq_false_iff.2 (List.length_pos_iff.1 (Layout.unfolds_ofTree _).lt_length)
        simp only [Except.map_ok, Guarded.lift_ok, Except.ok_bind, Arena.layOutOnce_ofTree, hne,
          Bool.false_eq_true, if_false]
        exact congrArg Except.ok hnodes

/-- A guarded run is never broken, whatever the text, the limit and the number. It gives the nodes
and the value that the formula has, or the error for which it is refused. -/
theorem guardedRun_eq (f : Formula) :
    f.guardedBuild =
        Guarded.lift ((·.nodes.map (Node.map Operand.opened)) <$> f.build) ∧
      ∀ x, f.guardedRun x = Guarded.lift ((·.evaluate x) <$> f.build) ∧
        ∀ b, f.guardedRun x ≠ .error (.broken b) := by
  have hbuild : f.guardedBuild =
      Guarded.lift ((·.nodes.map (Node.map Operand.opened)) <$> f.build) := by
    rw [f.guardedBuild_eq_tree, f.build_eq]
    cases f.tree with
    | error e => rfl
    | ok t =>
      have hnodes : ((Expression.ofTree t).nodes.map (Node.map Operand.opened)) =
          (Layout.ofTree t).map (Node.map Atom.opened) := by
        rw [Expression.ofTree, Expression.nodes_ofNodes, List.map_map]
        congr 1
        funext node
        cases node <;> rfl
      exact congrArg Except.ok hnodes.symm
  refine ⟨hbuild, ?_⟩
  intro x
  have hrun : f.guardedRun x = Guarded.lift ((·.evaluate x) <$> f.build) := by
    rw [guardedRun, f.guardedBuild_eq_tree, f.build_eq]
    cases f.tree with
    | error e => rfl
    | ok t => exact Node.evaluateOpen_ofTree x t
  refine ⟨hrun, ?_⟩
  intro b
  rw [hrun]
  exact Guarded.lift_ne_broken _ b

end Formula

end ComplexFormula
