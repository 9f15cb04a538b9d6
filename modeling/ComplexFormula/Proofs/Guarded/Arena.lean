import ComplexFormula.Proofs.Guarded.Order
import ComplexFormula.Proofs.Numbering
import ComplexFormula.Proofs.Unfolding

/-!
An arena made from tokens and laid out with each node taken once. Tokens in postfix order hold no
parenthesis, and the nodes are those of a tree, so that no node is met a second time.
-/

namespace ComplexFormula

variable {α β : Type}

namespace Arena

/-- Adds a node for each token. The nodes that wait stand in `stack`, the last one first. -/
def buildTokens (nodes : Array (Node α)) (stack : List Waiting) :
    List (Spanned (Token α)) → Guarded (Arena α)
  | [] =>
    match stack.reverse with
    | [] => .error (.refused ⟨.missingOperand, .unknown⟩)
    | [root] => .ok ⟨nodes, root.place⟩
    | _ :: extra :: _ => Guarded.refuse .extraOperand extra.start
  | ⟨.operand a, start, _⟩ :: rest => do
    let nodes := nodes.push (.leaf a)
    let place ← Guarded.pred .nodeMissing nodes.size
    buildTokens nodes (⟨place, start⟩ :: stack) rest
  | ⟨.operator o, start, _⟩ :: rest =>
    match stack with
    | right :: left :: below => do
      let nodes := nodes.push (.branch o left.place right.place)
      let place ← Guarded.pred .nodeMissing nodes.size
      buildTokens nodes (⟨place, start⟩ :: below) rest
    | _ => Guarded.refuse .missingOperand start
  | ⟨.opening, _, _⟩ :: _ => .error (.broken .parenthesisAmongTerms)
  | ⟨.closing, _, _⟩ :: _ => .error (.broken .parenthesisAmongTerms)

/-- Lays out the nodes whose places stand in a queue, behind `done` others. -/
def layOutOnce (slots : Array (Option (Node α))) (done : Nat) (queue : List Nat) :
    Guarded (List (Node α)) :=
  match queue with
  | [] => .ok []
  | place :: queue =>
    match _h : slots[place]?.join with
    | none => .error (.broken .nodeTaken)
    | some (.leaf a) =>
      (.leaf a :: ·) <$> layOutOnce (slots.setIfInBounds place none) (done + 1) queue
    | some (.branch o l r) =>
      let next := done + queue.length + 1
      (.branch o next (next + 1) :: ·) <$>
        layOutOnce (slots.setIfInBounds place none) (done + 1) (queue ++ [l, r])
termination_by slots.countP Option.isSome
decreasing_by
  all_goals
    have := countP_setIfInBounds_none _h
    omega

/-! ### Tokens without parentheses -/

theorem pred_size_push (b : Breach) (nodes : Array (Node α)) (node : Node α) :
    Guarded.pred b (nodes.push node).size = .ok nodes.size := by
  rw [Array.size_push, Guarded.pred]

/-- Terms make the arena that they make without a guard. -/
theorem buildTokens_standing (nodes : Array (Node α)) (stack : List Waiting)
    (terms : List (Spanned (Term α))) :
    buildTokens nodes stack (Postfix.standing terms) = Guarded.lift (build nodes stack terms) := by
  rw [Postfix.standing]
  induction terms generalizing nodes stack with
  | nil =>
    rw [List.map_nil, buildTokens, build]
    rcases stack.reverse with _ | ⟨root, _ | ⟨extra, _⟩⟩ <;> rfl
  | cons term rest ih =>
    obtain ⟨a | o, start, stop⟩ := term <;> rw [List.map_cons, Spanned.map, Term.toToken]
    · rw [buildTokens, build, pred_size_push, Except.ok_bind, ih]
    · rcases stack with _ | ⟨right, _ | ⟨left, below⟩⟩
      · rfl
      · rfl
      · rw [buildTokens, build, pred_size_push, Except.ok_bind, ih]

/-! ### Each node is taken once -/

/-- No node is met again, so that all are laid out as they are without a guard. -/
theorem layOutOnce_eq {slots : Array (Option (Node α))} {queue : List (Nat × Tree α)}
    (h : Ready slots queue) (done : Nat) :
    layOutOnce slots done (queue.map rootPlace) =
      .ok (layOut slots done (queue.map rootPlace)) := by
  generalize hplaces : queue.map rootPlace = places
  fun_induction layOutOnce slots done places generalizing queue with
  | case1 => rw [layOut]
  | case2 slots done place places htaken =>
    obtain ⟨s, queue, rfl, rfl, rfl⟩ := List.map_eq_cons_iff.1 hplaces
    rcases h.step with ⟨a, hnode, -⟩ | ⟨o, l, r, hnode, -⟩ <;> cases htaken.symm.trans hnode
  | case3 slots done place places a hnode ih =>
    obtain ⟨s, queue, rfl, rfl, rfl⟩ := List.map_eq_cons_iff.1 hplaces
    rcases h.step with ⟨a, -, hready⟩ | ⟨o, l, r, hbranch, -⟩
    · rw [layOut_leaf hnode, ih hready rfl, Except.map_ok]
    · cases hnode.symm.trans hbranch
  | case4 slots done place places o l r hnode =>
    next ih =>
    obtain ⟨s, queue, rfl, rfl, rfl⟩ := List.map_eq_cons_iff.1 hplaces
    rcases h.step with ⟨a, hleaf, -⟩ | ⟨o, l, r, hbranch, hready⟩
    · cases hnode.symm.trans hleaf
    · cases hnode.symm.trans hbranch
      rw [layOut_branch hnode, ih hready (by simp), Except.map_ok]

theorem layOutOnce_ofTree (t : Tree α) :
    layOutOnce ((ofTree t).nodes.map some) 0 [(ofTree t).root] = .ok (Layout.ofTree t) := by
  have honce := layOutOnce_eq (ready_ofTree t) 0
  rw [layOut_eq (ready_ofTree t)] at honce
  simpa [Layout.ofTree, ofTree, rootPlace] using honce

end Arena

/-! ### Other operands -/

/-- The tree does not depend on what the operands are. -/
theorem Tree.build_map (f : α → β) (stack : List (Pending α)) (terms : List (Spanned (Term α))) :
    build (stack.map fun p => ⟨p.tree.map f, p.start⟩) (terms.map (Spanned.map (Term.map f))) =
      Tree.map f <$> build stack terms := by
  induction terms generalizing stack with
  | nil =>
    rw [List.map_nil, build, build, ← List.map_reverse]
    rcases stack.reverse with _ | ⟨root, _ | ⟨extra, _⟩⟩ <;> rfl
  | cons term rest ih =>
    obtain ⟨a | o, start, stop⟩ := term <;> rw [List.map_cons, Spanned.map, Term.map]
    · rw [build, build, ← ih]
      rfl
    · rcases stack with _ | ⟨right, _ | ⟨left, below⟩⟩
      · rfl
      · rfl
      · simp only [List.map_cons]
        rw [build, build, ← ih]
        rfl

end ComplexFormula
