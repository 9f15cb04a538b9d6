import ComplexFormula.Formula
import ComplexFormula.Proofs.Postorder

/-!
An arena is a numbered tree. The nodes that a run of terms makes are the nodes of its tree in
postorder, so a tree takes up consecutive places and its root the last of them. Laying such an arena
out level by level takes every node once, and gives what laying out the tree itself gives. So an
expression can be had from the tree alone.
-/

namespace ComplexFormula

variable {α : Type}

namespace Arena

/-- The nodes of a tree in postorder, numbered from `base` on. -/
def number (base : Nat) : Tree α → List (Node α)
  | .leaf a => [.leaf a]
  | .branch o l r =>
    number base l ++ number (base + l.size) r ++
      [.branch o (base + (l.size - 1)) (base + l.size + (r.size - 1))]

/-- The arena that holds a tree and nothing else. -/
def ofTree (t : Tree α) : Arena α :=
  ⟨(number 0 t).toArray, t.size - 1⟩

theorem length_number (base : Nat) (t : Tree α) : (number base t).length = t.size := by
  induction t generalizing base with
  | leaf a => rfl
  | branch o l r hl hr => simp [number, Tree.size, hl, hr]; omega

/-! ### The terms of a tree make its arena -/

/-- The nodes made so far are those of the trees that wait, one tree behind the other, and each
waits under the place of its root. -/
inductive Holds : List (Node α) → List Waiting → List (Tree.Pending α) → Prop
  | empty : Holds [] [] []
  | push {nodes : List (Node α)} {stack : List Waiting} {trees : List (Tree.Pending α)}
      (h : Holds nodes stack trees) (t : Tree α) (start : Nat) :
      Holds (nodes ++ number nodes.length t) (⟨nodes.length + (t.size - 1), start⟩ :: stack)
        (⟨t, start⟩ :: trees)

theorem Holds.starts {nodes : List (Node α)} {stack : List Waiting}
    {trees : List (Tree.Pending α)} (h : Holds nodes stack trees) :
    stack.map (·.start) = trees.map (·.start) := by
  induction h with
  | empty => rfl
  | push h t start ih => simp [ih]

/-- Joining the last two trees keeps the correspondence. -/
theorem Holds.join {nodes : List (Node α)} {right left : Waiting} {below : List Waiting}
    {trees : List (Tree.Pending α)} (h : Holds nodes (right :: left :: below) trees)
    (o : Operator) (start : Nat) : ∃ r l trees', trees = r :: l :: trees' ∧
      Holds (nodes ++ [.branch o left.place right.place]) (⟨nodes.length, start⟩ :: below)
        (⟨.branch o l.tree r.tree, start⟩ :: trees') := by
  cases h with
  | push h r rstart =>
    cases h with
    | @push nodes _ trees' h l lstart =>
      refine ⟨_, _, trees', rfl, ?_⟩
      have := h.push (.branch o l r) start
      simpa [number, Tree.size, length_number, Nat.add_assoc] using this

/-- What is left at the end is the arena of what is left as a tree, or the same error. -/
theorem build_nil_of_holds {nodes : Array (Node α)} {stack : List Waiting}
    {trees : List (Tree.Pending α)} (h : Holds nodes.toList stack trees) :
    build nodes stack [] = ofTree <$> Tree.build trees [] := by
  generalize hnodes : nodes.toList = list at h
  cases h with
  | empty => rfl
  | push h t start =>
    cases h with
    | empty =>
      obtain rfl : nodes = (number 0 t).toArray := Array.toList_inj.1 (by simpa using hnodes)
      simp [build, Tree.build, ofTree, Functor.map, Except.map]
    | push h u ustart =>
      -- two are left at least, and the second from the bottom starts at one place in both
      have hstarts := congrArg List.reverse ((h.push u ustart).push t start).starts
      rw [← List.map_reverse, ← List.map_reverse] at hstarts
      rw [build, Tree.build]
      generalize hs : List.reverse (_ :: _ :: _ : List Waiting) = s at hstarts
      generalize ht : List.reverse (_ :: _ :: _ : List (Tree.Pending α)) = u at hstarts
      have hslen := congrArg List.length hs
      have htlen := congrArg List.length ht
      simp only [List.length_reverse, List.length_cons] at hslen htlen
      rcases s with _ | ⟨_, _ | ⟨a, s⟩⟩
      · simp at hslen
      · simp at hslen
      rcases u with _ | ⟨_, _ | ⟨b, u⟩⟩
      · simp at htlen
      · simp at htlen
      simp only [List.map_cons, List.cons.injEq] at hstarts
      simp only [hstarts.2.1]
      rfl

theorem build_of_holds {nodes : Array (Node α)} {stack : List Waiting}
    {trees : List (Tree.Pending α)} (h : Holds nodes.toList stack trees)
    (terms : List (Spanned (Term α))) :
    build nodes stack terms = ofTree <$> Tree.build trees terms := by
  induction terms generalizing nodes stack trees with
  | nil => exact build_nil_of_holds h
  | cons term rest ih =>
    obtain ⟨a | o, start, stop⟩ := term
    · rw [build, Tree.build]
      apply ih
      simpa [number, Tree.size] using h.push (.leaf a) start
    · rcases stack with _ | ⟨right, _ | ⟨left, below⟩⟩
      · obtain rfl : trees = [] := by simpa using h.starts.symm
        rfl
      · obtain ⟨_, rfl, -⟩ := List.map_eq_singleton_iff.1 h.starts.symm
        rfl
      · obtain ⟨r, l, trees', rfl, hjoin⟩ := h.join o start
        rw [build, Tree.build]
        exact ih (by simpa using hjoin)

/-- The arena of a run of terms is the numbered tree of these terms. -/
theorem ofPostfix_eq (terms : List (Spanned (Term α))) :
    ofPostfix terms = ofTree <$> Tree.ofPostfix terms :=
  build_of_holds .empty terms

/-! ### Laying the arena out takes every node once -/

/-- The nodes of a tree numbered from `base` on are all in their slots. -/
def Intact (slots : Array (Option (Node α))) (base : Nat) (t : Tree α) : Prop :=
  ∀ i node, (number base t)[i]? = some node → slots[base + i]? = some (some node)

section Intact

variable {slots : Array (Option (Node α))} {base : Nat} {o : Operator} {l r t : Tree α}

theorem Intact.left (h : Intact slots base (.branch o l r)) : Intact slots base l := by
  intro i node hi
  apply h
  rw [number, List.append_assoc, List.getElem?_append_left (List.getElem?_eq_some_iff.1 hi).1, hi]

theorem Intact.right (h : Intact slots base (.branch o l r)) :
    Intact slots (base + l.size) r := by
  intro i node hi
  have := (List.getElem?_eq_some_iff.1 hi).1
  rw [Nat.add_assoc]
  apply h
  rw [number, List.getElem?_append_left (by simp [length_number] at this ⊢; omega),
    List.getElem?_append_right (by simp [length_number]), length_number, Nat.add_sub_cancel_left,
    hi]

theorem Intact.root_leaf {a : α} (h : Intact slots base (.leaf a)) :
    slots[base]?.join = some (.leaf a) := by
  rw [show slots[base]? = some (some (.leaf a)) from h 0 _ rfl]
  rfl

theorem Intact.root_branch (h : Intact slots base (.branch o l r)) :
    slots[base + (l.size + r.size)]?.join =
      some (.branch o (base + (l.size - 1)) (base + l.size + (r.size - 1))) := by
  rw [h (l.size + r.size) (.branch o (base + (l.size - 1)) (base + l.size + (r.size - 1)))
    (by simp [number, length_number])]
  rfl

/-- Emptying a slot outside leaves a tree as it was. -/
theorem Intact.empty_outside (h : Intact slots base t) {place : Nat}
    (hplace : place < base ∨ base + t.size ≤ place) :
    Intact (slots.setIfInBounds place none) base t := by
  intro i node hi
  have := (List.getElem?_eq_some_iff.1 hi).1
  rw [length_number] at this
  rw [Array.getElem?_setIfInBounds_ne (by omega)]
  exact h i node hi

end Intact

/-- Two numbered trees take up no place in common. -/
def Apart (s t : Nat × Tree α) : Prop :=
  s.1 + s.2.size ≤ t.1 ∨ t.1 + t.2.size ≤ s.1

/-- The trees in the queue are all there to be laid out, each in places of its own. -/
structure Ready (slots : Array (Option (Node α))) (queue : List (Nat × Tree α)) : Prop where
  intact : ∀ s ∈ queue, Intact slots s.1 s.2
  apart : queue.Pairwise Apart

/-- The place of the root of a numbered tree. -/
def rootPlace (s : Nat × Tree α) : Nat :=
  s.1 + (s.2.size - 1)

theorem Ready.leaf {slots : Array (Option (Node α))} {base : Nat} {a : α}
    {queue : List (Nat × Tree α)} (h : Ready slots ((base, .leaf a) :: queue)) :
    Ready (slots.setIfInBounds base none) queue where
  intact s hs := by
    refine (h.intact s (List.mem_cons_of_mem _ hs)).empty_outside ?_
    have := List.rel_of_pairwise_cons h.apart hs
    simp only [Apart, Tree.size] at this
    omega
  apart := h.apart.of_cons

theorem Ready.branch {slots : Array (Option (Node α))} {base : Nat} {o : Operator} {l r : Tree α}
    {queue : List (Nat × Tree α)} (h : Ready slots ((base, .branch o l r) :: queue)) :
    Ready (slots.setIfInBounds (base + (l.size + r.size)) none)
      (queue ++ [(base, l), (base + l.size, r)]) where
  intact s hs := by
    have hroot := h.intact _ List.mem_cons_self
    rcases List.mem_append.1 hs with hs | hs
    · refine (h.intact s (List.mem_cons_of_mem _ hs)).empty_outside ?_
      have := List.rel_of_pairwise_cons h.apart hs
      simp only [Apart, Tree.size] at this
      have := s.2.size_pos
      omega
    · have := r.size_pos
      simp only [List.mem_cons, List.not_mem_nil, or_false] at hs
      rcases hs with rfl | rfl
      · exact hroot.left.empty_outside (by simp only; omega)
      · exact hroot.right.empty_outside (by simp only; omega)
  apart := by
    refine List.pairwise_append.2 ⟨h.apart.of_cons, ?_, ?_⟩
    · simp [Apart]
    · intro s hs t ht
      have := List.rel_of_pairwise_cons h.apart hs
      simp only [Apart, Tree.size] at this ⊢
      simp only [List.mem_cons, List.not_mem_nil, or_false] at ht
      rcases ht with rfl | rfl <;> simp only <;> omega

/-- The root of the first tree in the queue is in its slot. With the slot emptied the rest is still
there, and behind it the sides of a branch. -/
theorem Ready.step {slots : Array (Option (Node α))} {s : Nat × Tree α}
    {queue : List (Nat × Tree α)} (h : Ready slots (s :: queue)) :
    (∃ a, slots[rootPlace s]?.join = some (.leaf a) ∧
      Ready (slots.setIfInBounds (rootPlace s) none) queue) ∨
    ∃ o l r, slots[rootPlace s]?.join = some (.branch o (rootPlace l) (rootPlace r)) ∧
      Ready (slots.setIfInBounds (rootPlace s) none) (queue ++ [l, r]) := by
  obtain ⟨base, a | ⟨o, l, r⟩⟩ := s
  · exact .inl ⟨a, (h.intact _ List.mem_cons_self).root_leaf, h.leaf⟩
  · exact .inr ⟨o, (base, l), (base + l.size, r), (h.intact _ List.mem_cons_self).root_branch,
      h.branch⟩

section LayOut

variable {slots : Array (Option (Node α))} {done place : Nat} {queue : List Nat}

theorem layOut_leaf {a : α} (h : slots[place]?.join = some (.leaf a)) :
    layOut slots done (place :: queue) =
      .leaf a :: layOut (slots.setIfInBounds place none) (done + 1) queue := by
  rw [layOut]
  split <;> simp_all

theorem layOut_branch {o : Operator} {l r : Nat} (h : slots[place]?.join = some (.branch o l r)) :
    layOut slots done (place :: queue) =
      .branch o (done + queue.length + 1) (done + queue.length + 2) ::
        layOut (slots.setIfInBounds place none) (done + 1) (queue ++ [l, r]) := by
  rw [layOut]
  split <;> simp_all

end LayOut

/-- Laying out the nodes of numbered trees lays out the trees. -/
theorem layOut_eq {slots : Array (Option (Node α))} {queue : List (Nat × Tree α)}
    (h : Ready slots queue) (done : Nat) :
    layOut slots done (queue.map rootPlace) =
      Layout.breadthFirst (done + queue.length) (queue.map (·.2)) := by
  generalize hnext : done + queue.length = next
  generalize htrees : queue.map (·.2) = trees
  fun_induction Layout.breadthFirst next trees generalizing slots queue done with
  | case1 =>
    obtain rfl := List.map_eq_nil_iff.1 htrees
    simp [layOut]
  | case2 next a trees ih =>
    obtain ⟨⟨base, _⟩, queue, rfl, rfl, rfl⟩ := List.map_eq_cons_iff.1 htrees
    simp only [List.length_cons] at hnext
    rw [List.map_cons, rootPlace, Tree.size, Nat.sub_self, Nat.add_zero,
      layOut_leaf (h.intact _ List.mem_cons_self).root_leaf]
    rw [← ih h.leaf (done + 1) (by omega) rfl]
  | case3 next o l r trees ih =>
    obtain ⟨⟨base, _⟩, queue, rfl, rfl, rfl⟩ := List.map_eq_cons_iff.1 htrees
    simp only [List.length_cons] at hnext
    rw [List.map_cons, rootPlace, Tree.size, Nat.add_sub_cancel,
      layOut_branch (h.intact _ List.mem_cons_self).root_branch]
    rw [← ih h.branch (done + 1) (by simp; omega) (by simp)]
    simp [rootPlace, ← hnext, Nat.add_assoc]

theorem ready_ofTree (t : Tree α) : Ready ((ofTree t).nodes.map some) [(0, t)] where
  intact s hs := by
    obtain rfl := List.mem_singleton.1 hs
    intro i node hi
    simp [ofTree, hi]
  apart := List.pairwise_singleton _ _

theorem breadthFirst_ofTree (t : Tree α) : (ofTree t).breadthFirst = Layout.ofTree t := by
  simpa [breadthFirst, Layout.ofTree, ofTree, rootPlace] using layOut_eq (ready_ofTree t) 0

end Arena

/-- The arena of a formula is that of its tree. -/
theorem Formula.arena_eq (f : Formula) : f.arena = Arena.ofTree <$> f.tree := by
  rw [arena, tree]
  cases f.terms with
  | error e => rfl
  | ok terms => exact Arena.ofPostfix_eq terms

/-- The expression of a formula is that of its tree. -/
theorem Formula.build_eq (f : Formula) : f.build = Expression.ofTree <$> f.tree := by
  rw [build, arena_eq]
  cases f.tree with
  | error e => rfl
  | ok t => exact congrArg (Except.ok ∘ Expression.ofNodes) (Arena.breadthFirst_ofTree t)

theorem Formula.build_of_tree {f : Formula} {t : Tree Atom} (h : f.tree = .ok t) :
    f.build = .ok (.ofTree t) := by
  rw [build_eq, h]
  rfl

end ComplexFormula
