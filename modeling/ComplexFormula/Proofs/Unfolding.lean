import ComplexFormula.Proofs.Numbering

/-!
The tree that a list of nodes holds at a place, found by following the places that the branches
name. An arena holds its tree at its root, and the list that is laid out from it holds the same tree
at its front, a tree at every other place, and the sides of each branch behind it.
-/

namespace ComplexFormula

variable {α β : Type}

namespace Node

/-- Another operand at a leaf. -/
def map (f : α → β) : Node α → Node β
  | leaf a => leaf (f a)
  | branch o l r => branch o l r

/-- The tree that is found at a place in a list of nodes. -/
inductive Unfolds (nodes : List (Node α)) : Nat → Tree α → Prop
  | leaf {place : Nat} {a : α} (h : nodes[place]? = some (.leaf a)) :
      Unfolds nodes place (.leaf a)
  | branch {place : Nat} {o : Operator} {l r : Nat} {left right : Tree α}
      (h : nodes[place]? = some (.branch o l r)) (hl : Unfolds nodes l left)
      (hr : Unfolds nodes r right) : Unfolds nodes place (.branch o left right)

/-- No more than one tree is found at a place. -/
theorem Unfolds.unique {nodes : List (Node α)} {place : Nat} {s t : Tree α}
    (hs : Unfolds nodes place s) (ht : Unfolds nodes place t) : s = t := by
  induction hs generalizing t with
  | leaf h =>
    cases ht with
    | leaf h' => simp_all
    | branch h' => simp_all
  | branch h _ _ ihl ihr =>
    cases ht with
    | leaf h' => simp_all
    | branch h' hl' hr' =>
      obtain ⟨rfl, rfl, rfl⟩ : _ ∧ _ ∧ _ := by simpa [h] using h'
      rw [ihl hl', ihr hr']

theorem Unfolds.lt_length {nodes : List (Node α)} {place : Nat} {t : Tree α}
    (h : Unfolds nodes place t) : place < nodes.length := by
  cases h with
  | leaf h => exact (List.getElem?_eq_some_iff.1 h).1
  | branch h => exact (List.getElem?_eq_some_iff.1 h).1

/-- Other operands at the nodes are other operands in the tree. -/
theorem Unfolds.map {nodes : List (Node α)} {place : Nat} {t : Tree α}
    (h : Unfolds nodes place t) (f : α → β) : Unfolds (nodes.map (Node.map f)) place (t.map f) := by
  induction h with
  | leaf h => exact .leaf (by simp [h, Node.map])
  | branch h _ _ ihl ihr => exact .branch (by simp [h, Node.map]) ihl ihr

/-- Nodes are found in a longer list as well. -/
theorem Unfolds.append {nodes : List (Node α)} {place : Nat} {t : Tree α}
    (h : Unfolds nodes place t) (more : List (Node α)) : Unfolds (nodes ++ more) place t := by
  have extend {p : Nat} {n : Node α} (hp : nodes[p]? = some n) : (nodes ++ more)[p]? = some n := by
    rw [List.getElem?_append_left (List.getElem?_eq_some_iff.1 hp).1, hp]
  induction h with
  | leaf h => exact .leaf (extend h)
  | branch h _ _ ihl ihr => exact .branch (extend h) ihl ihr

/-- Every branch stands before its sides. -/
def Forward (nodes : List (Node α)) : Prop :=
  ∀ (place : Nat) (o : Operator) (l r : Nat),
    nodes[place]? = some (.branch o l r) → place < l ∧ place < r

theorem Forward.map {nodes : List (Node α)} (h : Forward nodes) (f : α → β) :
    Forward (nodes.map (Node.map f)) := by
  intro place o l r hplace
  rw [List.getElem?_map, Option.map_eq_some_iff] at hplace
  obtain ⟨node, hnode, hmap⟩ := hplace
  cases node with
  | leaf a => simp [Node.map] at hmap
  | branch o' l' r' =>
    obtain ⟨rfl, rfl, rfl⟩ : _ ∧ _ ∧ _ := by simpa [Node.map] using hmap
    exact h _ _ _ _ hnode

theorem forward_nil : Forward ([] : List (Node α)) := by
  simp [Forward]

theorem Forward.concat {nodes : List (Node α)} (h : Forward nodes) (node : Node α)
    (hnode : ∀ o l r, node = .branch o l r → nodes.length < l ∧ nodes.length < r) :
    Forward (nodes ++ [node]) := by
  intro place o l r hplace
  rcases Nat.lt_trichotomy place nodes.length with hlt | rfl | hlt
  · rw [List.getElem?_append_left hlt] at hplace
    exact h _ _ _ _ hplace
  · exact hnode o l r (by simpa using hplace)
  · have := (List.getElem?_eq_some_iff.1 hplace).1
    simp only [List.length_append, List.length_singleton] at this
    omega

end Node

/-- An arena holds its tree at its root. -/
theorem Arena.unfolds_ofTree (t : Tree α) :
    Node.Unfolds (Arena.ofTree t).nodes.toList (Arena.ofTree t).root t := by
  suffices h : ∀ before : List (Node α),
      Node.Unfolds (before ++ number before.length t) (before.length + (t.size - 1)) t by
    simpa [ofTree] using h []
  induction t with
  | leaf a => exact fun before => .leaf (by simp [number, Tree.size])
  | branch o l r hl hr =>
    intro before
    have hl := hl before
    have hr := hr (before ++ number before.length l)
    simp only [List.length_append, length_number, List.append_assoc] at hr
    refine .branch (l := before.length + (l.size - 1)) (r := before.length + l.size + (r.size - 1))
      ?_ ?_ ?_
    · simp [number, Tree.size, length_number]
    · simpa [number] using hl.append (number (before.length + l.size) r ++ [.branch o _ _])
    · simpa [number] using hr.append [.branch o _ _]

namespace Layout

/-- Behind the nodes `before`, which lay out what stood before the queue, each tree of the queue is
found in its turn. -/
theorem unfolds_breadthFirst (before : List (Node α)) {next : Nat} (queue : List (Tree α))
    (hnext : before.length + queue.length = next) {i : Nat} {t : Tree α} (hi : queue[i]? = some t) :
    Node.Unfolds (before ++ breadthFirst next queue) (before.length + i) t := by
  fun_induction breadthFirst next queue generalizing before i t with
  | case1 => simp at hi
  | case2 next a queue ih =>
    cases i with
    | zero =>
      cases hi
      exact .leaf (by simp)
    | succ i =>
      have := ih (before ++ [.leaf a]) (by simp at hnext ⊢; omega) hi
      simpa [Nat.add_comm i, Nat.add_assoc] using this
  | case3 next o l r queue ih =>
    have ih {j : Nat} {u : Tree α} (hj : (queue ++ [l, r])[j]? = some u) :=
      ih (before ++ [.branch o next (next + 1)]) (by simp at hnext ⊢; omega) hj
    simp only [List.length_append, List.length_cons, List.length_nil, List.append_assoc,
      List.singleton_append, Nat.zero_add, Nat.add_assoc] at ih
    cases i with
    | zero =>
      cases hi
      simp only [List.length_cons] at hnext
      have hl := ih (j := queue.length) (u := l) (by simp)
      have hr := ih (j := queue.length + 1) (u := r) (by simp)
      refine .branch (l := next) (r := next + 1) (by simp) ?_ ?_
      · rwa [show before.length + (1 + queue.length) = next by omega] at hl
      · rwa [show before.length + (1 + (queue.length + 1)) = next + 1 by omega] at hr
    | succ i =>
      rw [List.getElem?_cons_succ] at hi
      have := ih (j := i) (u := t)
        (by rw [List.getElem?_append_left (List.getElem?_eq_some_iff.1 hi).1, hi])
      rwa [Nat.add_comm 1] at this

/-- A tree is found at every place behind `before`. -/
theorem exists_unfolds_breadthFirst (before : List (Node α)) {next : Nat} (queue : List (Tree α))
    (hnext : before.length + queue.length = next) {place : Nat} (hbefore : before.length ≤ place)
    (hplace : place < (before ++ breadthFirst next queue).length) :
    ∃ t, Node.Unfolds (before ++ breadthFirst next queue) place t := by
  fun_induction breadthFirst next queue generalizing before with
  | case1 => simp at hplace; omega
  | case2 next a queue ih =>
    obtain rfl | hlt := Nat.eq_or_lt_of_le hbefore
    · have := unfolds_breadthFirst before _ hnext (i := 0) rfl
      rw [breadthFirst] at this
      exact ⟨_, this⟩
    · have := ih (before ++ [.leaf a]) (by simp at hnext ⊢; omega) (by simp; omega)
        (by simpa using hplace)
      simpa using this
  | case3 next o l r queue ih =>
    obtain rfl | hlt := Nat.eq_or_lt_of_le hbefore
    · have := unfolds_breadthFirst before _ hnext (i := 0) rfl
      rw [breadthFirst] at this
      exact ⟨_, this⟩
    · have := ih (before ++ [.branch o next (next + 1)]) (by simp at hnext ⊢; omega)
        (by simp; omega) (by simpa using hplace)
      simpa using this

/-- Behind `before`, every branch stands before its sides. -/
theorem forward_breadthFirst {before : List (Node α)} (hbefore : Node.Forward before) {next : Nat}
    (queue : List (Tree α)) (hnext : before.length + queue.length = next) :
    Node.Forward (before ++ breadthFirst next queue) := by
  fun_induction breadthFirst next queue generalizing before with
  | case1 => simpa using hbefore
  | case2 next a queue ih =>
    have := ih (hbefore.concat (.leaf a) (by simp)) (by simp at hnext ⊢; omega)
    simpa using this
  | case3 next o l r queue ih =>
    simp only [List.length_cons] at hnext
    have := ih (hbefore.concat (.branch o next (next + 1)) (by simp; omega))
      (by simp; omega)
    simpa using this

/-- Other operands in the trees are other operands at the nodes. -/
theorem breadthFirst_map (f : α → β) (next : Nat) (queue : List (Tree α)) :
    breadthFirst next (queue.map (Tree.map f)) = (breadthFirst next queue).map (Node.map f) := by
  fun_induction breadthFirst next queue with
  | case1 => rw [List.map_nil, breadthFirst, List.map_nil]
  | case2 next a queue ih =>
    rw [List.map_cons, Tree.map, breadthFirst, ih]
    rfl
  | case3 next o l r queue ih =>
    rw [List.map_append] at ih
    rw [List.map_cons, Tree.map, breadthFirst]
    exact congrArg _ ih

/-- The tree that was laid out is found at the front. -/
theorem unfolds_ofTree (t : Tree α) : Node.Unfolds (ofTree t) 0 t :=
  unfolds_breadthFirst [] [t] (i := 0) rfl rfl

theorem exists_unfolds_ofTree {t : Tree α} {place : Nat} (h : place < (ofTree t).length) :
    ∃ s, Node.Unfolds (ofTree t) place s :=
  exists_unfolds_breadthFirst [] [t] rfl (Nat.zero_le place) h

theorem forward_ofTree (t : Tree α) : Node.Forward (ofTree t) :=
  forward_breadthFirst Node.forward_nil [t] rfl

end Layout

end ComplexFormula
