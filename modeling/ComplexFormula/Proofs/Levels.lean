import ComplexFormula.Proofs.Bracketing
import ComplexFormula.Proofs.Grouping

/-!
The order in which an expression is laid out. A branch behind `k` other branches names the places
`2 * k + 1` and `2 * k + 2` as its sides. So the sides of the branches, taken in order, fill the
list from the second place to the end, and the list goes down level by level.
-/

namespace ComplexFormula

variable {α β : Type}

namespace Node

/-- Whether a node is a branch. -/
def isBranch : Node α → Bool
  | leaf _ => false
  | branch _ _ _ => true

/-- How many branches stand before a place. -/
def rank (nodes : List (Node α)) (place : Nat) : Nat :=
  (nodes.take place).countP isBranch

/-- The node at the place `parent` is a branch, and the other place is that of one of its sides. -/
def IsParent (nodes : List (Node α)) (parent place : Nat) : Prop :=
  ∃ o l r, nodes[parent]? = some (.branch o l r) ∧ (place = l ∨ place = r)

/-- A place is so many steps below the root. -/
inductive Depth (nodes : List (Node α)) : Nat → Nat → Prop
  | root : Depth nodes 0 0
  | side {parent place depth : Nat} (h : Depth nodes parent depth)
      (hparent : IsParent nodes parent place) : Depth nodes place (depth + 1)

/-- The nodes stand level by level, the root first. -/
structure LevelOrder (nodes : List (Node α)) : Prop where
  nonempty : nodes ≠ []
  length_eq : nodes.length = 2 * nodes.countP isBranch + 1
  /-- The sides of a branch stand behind it, one directly behind the other. -/
  sides : ∀ place o l r, nodes[place]? = some (.branch o l r) →
    place < l ∧ r = l + 1 ∧ r < nodes.length
  /-- Each place but the first is that of a side of one branch only. -/
  existsUnique_parent : ∀ place, 0 < place → place < nodes.length →
    ∃! parent, IsParent nodes parent place
  /-- The sides of an earlier branch stand before those of a later one. -/
  sides_lt : ∀ a b, a < b → ∀ place place', IsParent nodes a place → IsParent nodes b place' →
    place < place'
  existsUnique_depth : ∀ place < nodes.length, ∃! depth, Depth nodes place depth
  depth_le : ∀ a b, a ≤ b → ∀ depth depth', Depth nodes a depth → Depth nodes b depth' →
    depth ≤ depth'

/-! ### Branches by number -/

section rank

variable {nodes : List (Node α)} {place place' : Nat} {o : Operator} {l r : Nat}

@[simp] theorem countP_leaf_cons (a : α) (nodes : List (Node α)) :
    (leaf a :: nodes).countP isBranch = nodes.countP isBranch :=
  List.countP_cons_of_neg Bool.false_ne_true

@[simp] theorem countP_branch_cons (o : Operator) (l r : Nat) (nodes : List (Node α)) :
    (branch o l r :: nodes).countP isBranch = nodes.countP isBranch + 1 :=
  List.countP_cons_of_pos rfl

@[simp] theorem rank_zero (nodes : List (Node α)) : rank nodes 0 = 0 := rfl

@[simp] theorem rank_leaf_cons (a : α) (nodes : List (Node α)) (place : Nat) :
    rank (leaf a :: nodes) (place + 1) = rank nodes place :=
  countP_leaf_cons a _

@[simp] theorem rank_branch_cons (o : Operator) (l r : Nat) (nodes : List (Node α)) (place : Nat) :
    rank (branch o l r :: nodes) (place + 1) = rank nodes place + 1 :=
  countP_branch_cons o l r _

theorem rank_succ (h : nodes[place]? = some (.branch o l r)) :
    rank nodes (place + 1) = rank nodes place + 1 := by
  simp [rank, List.take_add_one, h, isBranch]

theorem rank_mono (h : place ≤ place') : rank nodes place ≤ rank nodes place' :=
  (List.take_prefix_take_left h).sublist.countP_le

theorem rank_lt_rank (h : nodes[place]? = some (.branch o l r)) (hlt : place < place') :
    rank nodes place < rank nodes place' := by
  have hsucc := rank_succ h
  have hmono : rank nodes (place + 1) ≤ rank nodes place' := rank_mono hlt
  omega

theorem rank_lt_countP (h : nodes[place]? = some (.branch o l r)) :
    rank nodes place < nodes.countP isBranch := by
  have hlt := rank_lt_rank h (List.getElem?_eq_some_iff.1 h).1
  rwa [rank, rank, List.take_length] at hlt

/-- There is a branch for each number below how many there are. -/
theorem exists_rank_eq {k : Nat} (hk : k < nodes.countP isBranch) :
    ∃ place o l r, nodes[place]? = some (.branch o l r) ∧ rank nodes place = k := by
  induction nodes generalizing k with
  | nil => simp at hk
  | cons node nodes ih =>
    cases node with
    | leaf a =>
      rcases ih (by simpa using hk) with ⟨place, o, l, r, hplace, rfl⟩
      exact ⟨place + 1, o, l, r, by simpa using hplace, by simp⟩
    | branch o l r =>
      rcases k with _ | k
      · exact ⟨0, o, l, r, rfl, rfl⟩
      · rcases ih (k := k) (by simpa using hk) with ⟨place, o', l', r', hplace, rfl⟩
        exact ⟨place + 1, o', l', r', by simpa using hplace, by simp⟩

end rank

/-- Behind `queued` nodes that are due already, the sides of the branches fill the places from
`next` on, and nothing else does. -/
structure Fills (queued next : Nat) (nodes : List (Node α)) : Prop where
  length_eq : nodes.length = queued + 2 * nodes.countP isBranch
  sides : ∀ place o l r, nodes[place]? = some (.branch o l r) →
    l = next + 2 * rank nodes place ∧ r = l + 1

end Node

namespace Layout

theorem fills_breadthFirst (next : Nat) (queue : List (Tree α)) :
    Node.Fills queue.length next (breadthFirst next queue) := by
  fun_induction breadthFirst next queue with
  | case1 => exact ⟨rfl, by simp⟩
  | case2 next a queue ih =>
    have hlength := ih.length_eq
    refine ⟨by simp; omega, ?_⟩
    intro place o l r h
    cases place with
    | zero => simp at h
    | succ place => simpa using ih.sides place o l r (by simpa using h)
  | case3 next o l r queue ih =>
    have hlength := ih.length_eq
    simp at hlength
    refine ⟨by simp; omega, ?_⟩
    intro place o' l' r' h
    cases place with
    | zero =>
      obtain ⟨rfl, rfl, rfl⟩ : _ ∧ _ ∧ _ := by simpa using h
      simp
    | succ place =>
      have hsides := ih.sides place o' l' r' (by simpa using h)
      simp
      omega

end Layout

/-! ### Levels -/

namespace Node

section LevelOrder

variable {nodes : List (Node α)} {place : Nat}

/-- The number of its branch tells where a side stands. -/
theorem Fills.of_isParent (h : Fills 1 1 nodes) {parent : Nat}
    (hparent : IsParent nodes parent place) :
    2 * rank nodes parent < place ∧ place ≤ 2 * rank nodes parent + 2 ∧ place < nodes.length := by
  rcases hparent with ⟨o, l, r, hnode, hside⟩
  have hsides := h.sides parent o l r hnode
  have hrank := rank_lt_countP hnode
  have hlength := h.length_eq
  omega

/-- A later branch has later sides. -/
theorem Fills.sides_lt (h : Fills 1 1 nodes) {a b place place' : Nat} (hlt : a < b)
    (ha : IsParent nodes a place) (hb : IsParent nodes b place') : place < place' := by
  have hplace := h.of_isParent ha
  have hplace' := h.of_isParent hb
  rcases ha with ⟨o, l, r, hnode, -⟩
  have hrank := rank_lt_rank hnode hlt
  omega

/-- A place has one parent at most. -/
theorem Fills.parent_unique (h : Fills 1 1 nodes) {a b : Nat} (ha : IsParent nodes a place)
    (hb : IsParent nodes b place) : a = b := by
  rcases Nat.lt_trichotomy a b with hlt | heq | hlt
  · exact absurd (h.sides_lt hlt ha hb) (Nat.lt_irrefl _)
  · exact heq
  · exact absurd (h.sides_lt hlt hb ha) (Nat.lt_irrefl _)

/-- A place behind the first has a parent. -/
theorem Fills.exists_isParent (h : Fills 1 1 nodes) (hpos : 0 < place)
    (hplace : place < nodes.length) : ∃ parent, IsParent nodes parent place := by
  have hlength := h.length_eq
  have hk : (place - 1) / 2 < nodes.countP isBranch := by omega
  rcases exists_rank_eq hk with ⟨parent, o, l, r, hnode, hrank⟩
  have hsides := h.sides parent o l r hnode
  exact ⟨parent, o, l, r, hnode, by omega⟩

theorem Forward.lt_of_isParent (h : Forward nodes) {parent : Nat}
    (hparent : IsParent nodes parent place) : parent < place := by
  rcases hparent with ⟨o, l, r, hnode, rfl | rfl⟩
  · exact (h parent o place r hnode).1
  · exact (h parent o l place hnode).2

/-- Each place is reached from the root. -/
theorem Fills.exists_depth (h : Fills 1 1 nodes) (hforward : Forward nodes)
    (hplace : place < nodes.length) : ∃ depth, Depth nodes place depth := by
  induction place using Nat.strongRecOn with
  | ind place ih =>
    rcases Nat.eq_zero_or_pos place with rfl | hpos
    · exact ⟨0, .root⟩
    · rcases h.exists_isParent hpos hplace with ⟨parent, hparent⟩
      have hlt := hforward.lt_of_isParent hparent
      rcases ih parent hlt (by omega) with ⟨depth, hdepth⟩
      exact ⟨depth + 1, hdepth.side hparent⟩

/-- Later places are no less deep: their parents are no earlier. -/
theorem Fills.depth_le (h : Fills 1 1 nodes) {a b depth depth' : Nat} (hle : a ≤ b)
    (ha : Depth nodes a depth) (hb : Depth nodes b depth') : depth ≤ depth' := by
  induction ha generalizing b depth' with
  | root => exact Nat.zero_le _
  | @side parent a depth ha hparent ih =>
    have hplace := h.of_isParent hparent
    cases hb with
    | root => omega
    | @side parent' _ depth' hb hparent' =>
      have hparents : parent ≤ parent' := by
        by_contra hlt
        have := h.sides_lt (Nat.lt_of_not_le hlt) hparent' hparent
        omega
      exact Nat.succ_le_succ (ih hparents hb)

/-- Nodes of which each branch stands before its sides, and whose sides fill the places behind the
root, stand level by level. -/
theorem Fills.levelOrder (h : Fills 1 1 nodes) (hforward : Forward nodes) : LevelOrder nodes where
  nonempty := by
    rintro rfl
    have hlength := h.length_eq
    simp at hlength
  length_eq := by
    rw [h.length_eq, Nat.add_comm]
  sides place o l r hnode := by
    have hside := h.of_isParent ⟨o, l, r, hnode, .inr rfl⟩
    exact ⟨(hforward place o l r hnode).1, (h.sides place o l r hnode).2, hside.2.2⟩
  existsUnique_parent place hpos hplace := by
    rcases h.exists_isParent hpos hplace with ⟨parent, hparent⟩
    exact ⟨parent, hparent, fun _ hother => h.parent_unique hother hparent⟩
  sides_lt _ _ hlt _ _ ha hb := h.sides_lt hlt ha hb
  existsUnique_depth place hplace := by
    rcases h.exists_depth hforward hplace with ⟨depth, hdepth⟩
    exact ⟨depth, hdepth, fun _ hother =>
      Nat.le_antisymm (h.depth_le (Nat.le_refl _) hother hdepth)
        (h.depth_le (Nat.le_refl _) hdepth hother)⟩
  depth_le _ _ hle _ _ ha hb := h.depth_le hle ha hb

end LevelOrder

end Node

/-- The tree of an expression is laid out level by level. -/
theorem Expression.levelOrder_ofTree (t : Tree Atom) : Node.LevelOrder (ofTree t).nodes := by
  have hnodes : (ofTree t).nodes = Layout.ofTree (t.map Atom.fold) := by
    rw [ofTree, nodes_ofNodes]
    exact (Layout.breadthFirst_map Atom.fold 1 [t]).symm
  rw [hnodes]
  exact (Layout.fills_breadthFirst 1 [t.map Atom.fold]).levelOrder (Layout.forward_ofTree _)

/-- There is one term for each token but the parentheses. -/
theorem Postfix.length_of_ofTokens {limit : Nat} {tokens : List (Spanned (Token α))}
    {terms : List (Spanned (Term α))} (h : ofTokens limit tokens = .ok terms) :
    terms.length = tokens.countP (·.item.term?.isSome) := by
  rcases exists_reorders_of_ofTokens h with ⟨order, horder⟩
  calc terms.length
    _ = (terms.map (Spanned.map Term.toToken)).length := (List.length_map _).symm
    _ = order.length := by rw [horder.terms_eq, List.length_map]
    _ = (tokens.zipIdx.filter (·.1.item.term?.isSome)).length := horder.perm.length_eq
    _ = (tokens.zipIdx.map (·.1)).countP (·.item.term?.isSome) := by
      rw [← List.countP_eq_length_filter, List.countP_map]
      rfl
    _ = tokens.countP (·.item.term?.isSome) := by rw [List.zipIdx_map_fst]

/-- The nodes of a formula that is read stand level by level, and there is one for each token but
the parentheses. -/
theorem Formula.levelOrder_of_build {f : Formula} {e : Expression} (h : f.build = .ok e) :
    Node.LevelOrder e.nodes ∧ ∃ ls, f.lexemes = .ok ls ∧
      e.nodes.length = ls.countP (·.item.term?.isSome) := by
  rw [build_eq] at h
  obtain ⟨t, ht, rfl⟩ := Except.map_eq_ok_iff.1 h
  obtain ⟨terms, hterms, htree⟩ := Except.bind_eq_ok_iff.1 ht
  obtain ⟨ls, hls, htokens⟩ := Except.bind_eq_ok_iff.1 hterms
  refine ⟨Expression.levelOrder_ofTree t, ls, hls, ?_⟩
  calc (Expression.ofTree t).nodes.length
    _ = t.size := Expression.length_ofTree t
    _ = t.postorder.length := t.length_postorder.symm
    _ = terms.length := by rw [← Tree.ofPostfix_eq_ok_iff.1 htree, List.length_map]
    _ = ls.countP (·.item.term?.isSome) := Postfix.length_of_ofTokens htokens

/-- The nodes of `(x+x*x)^x` stand on four levels. -/
theorem Formula.levelOrder_of_build_power : ∃ e, (Formula.mk "(x+x*x)^x" 1).build = .ok e ∧
    e.nodes.length = 7 ∧ Node.LevelOrder e.nodes := by
  have htree : (Formula.mk "(x+x*x)^x" 1).tree = .ok (.branch .pow
      (.branch .add (.leaf .free) (.branch .mul (.leaf .free) (.leaf .free))) (.leaf .free)) := by
    decide +kernel
  have hbuild := build_of_tree htree
  refine ⟨_, hbuild, ?_, (levelOrder_of_build hbuild).1⟩
  rw [Expression.length_ofTree]
  rfl

end ComplexFormula
