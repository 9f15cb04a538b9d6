import ComplexFormula.Tree

/-!
A tree as a list of nodes, level by level from the root. A branch names its sides by their places in
the list, which always come after its own. So the values of all nodes are found in one pass from the
last node to the first, however deep the tree.
-/

namespace ComplexFormula

/-- A node of a tree in a list of nodes. -/
inductive Node (α : Type)
  | leaf (a : α)
  | branch (o : Operator) (left right : Nat)
  deriving BEq, DecidableEq, Repr

namespace Node

variable {α β : Type} {m : Type → Type} [Monad m]

/-- Another operand at a leaf. -/
def mapM (f : α → m β) : Node α → m (Node β)
  | leaf a => leaf <$> f a
  | branch o l r => pure (branch o l r)

/-- The value of a node whose leaf is a value, given the values that are known so far. A branch has
none while a side has none. -/
def value? (apply : Operator → β → β → β) (known : Array (Option β)) : Node β → Option β
  | leaf v => some v
  | branch o l r => do
    let left ← known[l]?.join
    let right ← known[r]?.join
    some (apply o left right)

end Node

namespace Layout

variable {α β : Type}

/-- The number of nodes of the trees in a queue. -/
def queueSize : List (Tree α) → Nat
  | [] => 0
  | t :: queue => t.size + queueSize queue

theorem queueSize_append (us vs : List (Tree α)) :
    queueSize (us ++ vs) = queueSize us + queueSize vs := by
  induction us with
  | nil => simp [queueSize]
  | cons t us ih => rw [List.cons_append, queueSize, queueSize, ih, Nat.add_assoc]

/-- The nodes of the trees in a queue, where `next` is the place of the first node that is not in
the queue yet. The sides of a branch join the queue at its end. -/
def breadthFirst (next : Nat) (queue : List (Tree α)) : List (Node α) :=
  match queue with
  | [] => []
  | .leaf a :: queue => .leaf a :: breadthFirst next queue
  | .branch o l r :: queue => .branch o next (next + 1) :: breadthFirst (next + 2) (queue ++ [l, r])
termination_by queueSize queue
decreasing_by
  · simp [queueSize, Tree.size]
  · simp [queueSize, queueSize_append, Tree.size]
    omega

/-- The nodes of a tree, the root first. -/
def ofTree (t : Tree α) : List (Node α) :=
  breadthFirst 1 [t]

/-- The values of all nodes, found from the last to the first. -/
def values (apply : Operator → β → β → β) (nodes : List (Node β)) : Array (Option β) :=
  nodes.zipIdx.foldr
    (fun (node, place) known => known.setIfInBounds place (node.value? apply known))
    (Array.replicate nodes.length none)

/-- The value of the root. -/
def rootValue? (apply : Operator → β → β → β) (nodes : List (Node β)) : Option β :=
  (values apply nodes)[0]?.join

end Layout

end ComplexFormula
