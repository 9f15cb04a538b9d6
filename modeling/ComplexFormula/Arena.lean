import ComplexFormula.Layout

/-!
A tree as the terms of a formula make it: a store to which each term adds one node, a branch naming
its sides by their places. From there the tree is laid out level by level, which is the form in
which it is evaluated.
-/

namespace ComplexFormula

/-- Nodes in the order in which they were made, and the place of the root among them. -/
structure Arena (α : Type) where
  nodes : Array (Node α)
  root : Nat

namespace Arena

variable {α : Type}

/-- A node that waits for an operator: its place, and where its term starts. -/
structure Waiting where
  place : Nat
  start : Nat

/-- Adds a node for each term. The nodes that wait stand in `stack`, the last one first; an operator
joins the last two, and at the end a single one has to be left. -/
def build (nodes : Array (Node α)) (stack : List Waiting) :
    List (Spanned (Term α)) → Except ParseError (Arena α)
  | [] =>
    match stack.reverse with
    | [] => .error ⟨.missingOperand, .unknown⟩
    | [root] => .ok ⟨nodes, root.place⟩
    | _ :: extra :: _ => .error ⟨.extraOperand, .offset extra.start⟩
  | ⟨.operand a, start, _⟩ :: rest =>
    build (nodes.push (.leaf a)) (⟨nodes.size, start⟩ :: stack) rest
  | ⟨.operator o, start, _⟩ :: rest =>
    match stack with
    | right :: left :: below =>
      build (nodes.push (.branch o left.place right.place)) (⟨nodes.size, start⟩ :: below) rest
    | _ => .error ⟨.missingOperand, .offset start⟩

/-- The arena of a run of terms in postfix order. -/
def ofPostfix (terms : List (Spanned (Term α))) : Except ParseError (Arena α) :=
  build #[] [] terms

/-- Emptying a slot that is full leaves one slot fewer. -/
theorem countP_setIfInBounds_none {slots : Array (Option (Node α))} {place : Nat} {node : Node α}
    (h : slots[place]?.join = some node) :
    (slots.setIfInBounds place none).countP Option.isSome + 1 = slots.countP Option.isSome := by
  obtain ⟨hplace, hnode⟩ := Array.getElem?_eq_some_iff.1 (Option.join_eq_some_iff.1 h)
  have hpos : 0 < slots.countP Option.isSome :=
    Array.countP_pos_iff.2 ⟨_, Array.getElem_mem hplace, by simp [hnode]⟩
  rw [Array.setIfInBounds, dif_pos hplace, Array.countP_set, hnode]
  simp
  omega

/-- Lays out the nodes whose places stand in a queue, behind `done` others. A node is taken from its
slot, so that none is laid out twice, and the sides of a branch come behind all that are queued. -/
def layOut (slots : Array (Option (Node α))) (done : Nat) (queue : List Nat) : List (Node α) :=
  match queue with
  | [] => []
  | place :: queue =>
    match _h : slots[place]?.join with
    | none => layOut slots done queue
    | some (.leaf a) => .leaf a :: layOut (slots.setIfInBounds place none) (done + 1) queue
    | some (.branch o l r) =>
      let next := done + queue.length + 1
      .branch o next (next + 1) ::
        layOut (slots.setIfInBounds place none) (done + 1) (queue ++ [l, r])
termination_by 2 * slots.countP Option.isSome + queue.length
decreasing_by
  · simp
  · have := countP_setIfInBounds_none _h
    simp only [List.length_cons]
    omega
  · have := countP_setIfInBounds_none _h
    simp only [List.length_append, List.length_cons, List.length_nil]
    omega

/-- The nodes that are reached from the root, level by level. -/
def breadthFirst (a : Arena α) : List (Node α) :=
  layOut (a.nodes.map some) 0 [a.root]

end Arena

end ComplexFormula
