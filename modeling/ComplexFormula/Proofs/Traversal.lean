import ComplexFormula.Proofs.Acceptance
import ComplexFormula.Proofs.Unfolding

/-!
An arena and the terms that it was made of determine each other. The terms of a tree make an arena
that holds the tree at its last place, and going through an arena in postorder takes its places one
after the other and gives back the terms. Any other run of terms is refused, for a reason that shows
in how many operands more than operators there are at each point.
-/

namespace ComplexFormula

variable {α : Type}

/-! ### Going through an arena -/

namespace Node

/-- The places of the nodes that make up the tree at a place, each branch behind its two sides. -/
inductive Visits (nodes : List (Node α)) : Nat → List Nat → Prop
  | leaf {place : Nat} {a : α} (h : nodes[place]? = some (.leaf a)) : Visits nodes place [place]
  | branch {place : Nat} {o : Operator} {l r : Nat} {left right : List Nat}
      (h : nodes[place]? = some (.branch o l r)) (hl : Visits nodes l left)
      (hr : Visits nodes r right) : Visits nodes place (left ++ right ++ [place])

/-- The places are visited in a longer list as well. -/
theorem Visits.append {nodes : List (Node α)} {place : Nat} {places : List Nat}
    (h : Visits nodes place places) (more : List (Node α)) :
    Visits (nodes ++ more) place places := by
  have extend {p : Nat} {n : Node α} (hp : nodes[p]? = some n) : (nodes ++ more)[p]? = some n := by
    rw [List.getElem?_append_left (List.getElem?_eq_some_iff.1 hp).1, hp]
  induction h with
  | leaf h => exact .leaf (extend h)
  | branch h _ _ ihl ihr => exact .branch (extend h) ihl ihr

end Node

namespace Arena

/-- Going through the arena of a tree takes each place once, from the first to the last. -/
theorem visits_ofTree (t : Tree α) :
    Node.Visits (ofTree t).nodes.toList (ofTree t).root (List.range t.size) := by
  suffices h : ∀ before : List (Node α),
      Node.Visits (before ++ number before.length t) (before.length + (t.size - 1))
        (List.range' before.length t.size) by
    simpa [ofTree, List.range_eq_range'] using h []
  induction t with
  | leaf a => exact fun before => .leaf (a := a) (by simp [number, Tree.size])
  | branch o l r hl hr =>
    intro before
    have hl := hl before
    have hr := hr (before ++ number before.length l)
    simp only [List.length_append, length_number, List.append_assoc] at hr
    have hrange : List.range' before.length (l.size + r.size + 1) =
        List.range' before.length l.size ++ List.range' (before.length + l.size) r.size ++
          [before.length + (l.size + r.size)] := by
      rw [List.range'_append_1, List.range'_1_concat]
    rw [Tree.size, hrange, Nat.add_sub_cancel]
    refine .branch (o := o) (l := before.length + (l.size - 1))
      (r := before.length + l.size + (r.size - 1)) ?_ ?_ ?_
    · simp [number, length_number]
    · simpa [number] using hl.append (number (before.length + l.size) r ++ [.branch o _ _])
    · simpa [number] using hr.append [.branch o _ _]

end Arena

/-! ### Operands that are left over -/

namespace Tree

/-- How many operands more than operators there are. -/
def surplus (terms : List (Spanned (Term α))) : Int :=
  Token.surplus (terms.map (·.item.toToken))

/-- Before each operator two operands or more are left over. -/
def Fed (terms : List (Spanned (Term α))) : Prop :=
  ∀ before o start stop, before ++ [⟨.operator o, start, stop⟩] <+: terms → 2 ≤ surplus before

/-- The operator that starts at a place is the first one before which fewer than two are left. -/
def Starves (terms : List (Spanned (Term α))) (start : Nat) : Prop :=
  ∃ before o stop after, terms = before ++ ⟨.operator o, start, stop⟩ :: after ∧ Fed before ∧
    surplus before < 2

section Fed

variable {us terms : List (Spanned (Term α))} {t : Spanned (Term α)}

@[simp] theorem surplus_nil : surplus ([] : List (Spanned (Term α))) = 0 := rfl

theorem surplus_concat_operand (us : List (Spanned (Term α))) (a : α) (start stop : Nat) :
    surplus (us ++ [⟨.operand a, start, stop⟩]) = surplus us + 1 := by
  simp [surplus, Token.surplus_append, Token.surplus]

theorem surplus_concat_operator (us : List (Spanned (Term α))) (o : Operator) (start stop : Nat) :
    surplus (us ++ [⟨.operator o, start, stop⟩]) = surplus us - 1 := by
  simp [surplus, Token.surplus_append, Token.surplus]
  omega

theorem fed_nil : Fed ([] : List (Spanned (Term α))) := by
  intro before o start stop h
  simp at h

theorem Fed.concat_operand (h : Fed us) (a : α) (start stop : Nat) :
    Fed (us ++ [⟨.operand a, start, stop⟩]) := by
  intro before o start' stop' hfront
  rcases List.prefix_concat_iff.1 hfront with heq | hfront
  · simp at heq
  · exact h before o start' stop' hfront

theorem fed_concat_operator_iff {o : Operator} {start stop : Nat} :
    Fed (us ++ [⟨.operator o, start, stop⟩]) ↔ Fed us ∧ 2 ≤ surplus us := by
  constructor
  · intro h
    exact ⟨fun before o' start' stop' hfront =>
        h before o' start' stop' (hfront.trans (List.prefix_append _ _)),
      h us o start stop List.prefix_rfl⟩
  · rintro ⟨h, htwo⟩ before o' start' stop' hfront
    rcases List.prefix_concat_iff.1 hfront with heq | hfront
    · rwa [(List.append_inj' heq rfl).1]
    · exact h before o' start' stop' hfront

theorem Fed.of_concat (h : Fed (us ++ [t])) : Fed us :=
  fun before o start stop hfront => h before o start stop (hfront.trans (List.prefix_append _ _))

/-- Terms either have an operator that is starved or all their operators are fed. -/
theorem exists_starves_or_fed (terms : List (Spanned (Term α))) :
    (∃ start, Starves terms start) ∨ Fed terms := by
  induction terms using List.reverseRecOn with
  | nil => exact .inr fed_nil
  | append_singleton us t ih =>
    rcases ih with ⟨start, before, o, stop, after, rfl, hbefore⟩ | hus
    · exact .inl ⟨start, before, o, stop, after ++ [t], by simp, hbefore⟩
    · obtain ⟨a | o, start, stop⟩ := t
      · exact .inr (hus.concat_operand a start stop)
      · by_cases htwo : 2 ≤ surplus us
        · exact .inr (fed_concat_operator_iff.2 ⟨hus, htwo⟩)
        · exact .inl ⟨start, us, o, stop, [], rfl, hus, Int.not_le.1 htwo⟩

end Fed

/-- The last term behind which a number of operands are left over starts at a place. -/
def LeavesLast (terms : List (Spanned (Term α))) (count : Int) (start : Nat) : Prop :=
  ∃ before item stop after, terms = before ++ ⟨item, start, stop⟩ :: after ∧
    surplus (before ++ [⟨item, start, stop⟩]) = count ∧
    ∀ front, front <+: after → front ≠ [] →
      count < surplus (before ++ ⟨item, start, stop⟩ :: front)

/-- Why terms make no tree. -/
inductive TermFault (terms : List (Spanned (Term α))) : ParseError → Prop
  /-- An operator is starved, the first one that is. -/
  | starved {start : Nat} (h : Starves terms start) :
      TermFault terms ⟨.missingOperand, .offset start⟩
  /-- There are no terms. -/
  | empty (h : terms = []) : TermFault terms ⟨.missingOperand, .unknown⟩
  /-- No operator is starved, but more than one operand is left over at the end; the fault is where
  the second one is made. -/
  | crowded {start : Nat} (hfed : Fed terms) (hmany : 1 < surplus terms)
      (hstart : LeavesLast terms 2 start) : TermFault terms ⟨.extraOperand, .offset start⟩

/-- Each tree that waits is made by the last term behind which only those below it and itself are
left over. -/
def Placed (terms : List (Spanned (Term α))) : List (Pending α) → Prop
  | [] => True
  | p :: below => LeavesLast terms (below.length + 1) p.start ∧ Placed terms below

section Placed

variable {us terms : List (Spanned (Term α))} {t : Spanned (Term α)} {count : Int} {start : Nat}
  {stack : List (Pending α)}

theorem leavesLast_concat (us : List (Spanned (Term α))) (t : Spanned (Term α)) :
    LeavesLast (us ++ [t]) (surplus (us ++ [t])) t.start := by
  refine ⟨us, t.item, t.stop, [], rfl, rfl, fun front hfront hne => ?_⟩
  exact absurd (List.prefix_nil.1 hfront) hne

theorem LeavesLast.concat (h : LeavesLast us count start) (hlt : count < surplus (us ++ [t])) :
    LeavesLast (us ++ [t]) count start := by
  obtain ⟨before, item, stop, after, rfl, hcount, hafter⟩ := h
  refine ⟨before, item, stop, after ++ [t], by simp, hcount, fun front hfront hne => ?_⟩
  rcases List.prefix_concat_iff.1 hfront with rfl | hfront
  · simpa using hlt
  · exact hafter front hfront hne

theorem Placed.concat (h : Placed us stack) (hlt : stack.length < surplus (us ++ [t])) :
    Placed (us ++ [t]) stack := by
  induction stack with
  | nil => trivial
  | cons p below ih =>
    rw [List.length_cons, Int.natCast_succ] at hlt
    exact ⟨h.1.concat hlt, ih h.2 (by omega)⟩

/-- The second tree from the bottom is at a place of its own. -/
theorem Placed.leavesLast {below : List (Pending α)} {p : Pending α} {above : List (Pending α)}
    (h : Placed us (above ++ p :: below)) : LeavesLast us (below.length + 1) p.start := by
  induction above with
  | nil => exact h.1
  | cons q above ih => exact ih h.2

/-- While all operators are fed, as many trees wait as operands are left over. -/
theorem Fed.exists_ofPostfix_append (h : Fed us) : ∃ stack : List (Pending α),
    surplus us = stack.length ∧ Placed us stack ∧
      ∀ rest, ofPostfix (us ++ rest) = build stack rest := by
  induction us using List.reverseRecOn with
  | nil => exact ⟨[], rfl, trivial, fun _ => rfl⟩
  | append_singleton us t ih =>
    obtain ⟨stack, hlength, hplaced, hrun⟩ := ih h.of_concat
    have hlast := leavesLast_concat us t
    simp only [List.append_assoc, List.singleton_append, hrun]
    obtain ⟨a | o, start, stop⟩ := t
    · have hsurplus := surplus_concat_operand us a start stop
      rw [hsurplus, hlength] at hlast
      refine ⟨⟨.leaf a, start⟩ :: stack, ?_, ⟨hlast, hplaced.concat ?_⟩, fun rest => by rw [build]⟩
      · rw [hsurplus, hlength, List.length_cons, Int.natCast_succ]
      · omega
    · have htwo := (fed_concat_operator_iff.1 h).2
      have hsurplus := surplus_concat_operator us o start stop
      rcases stack with _ | ⟨right, _ | ⟨left, below⟩⟩ <;>
        simp only [List.length_cons, List.length_nil] at hlength
      case cons.cons =>
        have hone : surplus (us ++ [⟨.operator o, start, stop⟩]) = below.length + 1 := by omega
        rw [hone] at hlast
        refine ⟨⟨.branch o left.tree right.tree, start⟩ :: below, hone,
          ⟨hlast, hplaced.2.2.concat ?_⟩, fun rest => by rw [build]⟩
        omega
      all_goals omega

/-- Of terms whose operators are all fed something is left over. -/
theorem Fed.surplus_pos (h : Fed us) (hne : us ≠ []) : 0 < surplus us := by
  induction us using List.reverseRecOn with
  | nil => exact absurd rfl hne
  | append_singleton us t _ =>
    obtain ⟨a | o, start, stop⟩ := t
    · obtain ⟨stack, hlength, -⟩ := h.of_concat.exists_ofPostfix_append
      rw [surplus_concat_operand]
      omega
    · have := (fed_concat_operator_iff.1 h).2
      rw [surplus_concat_operator]
      omega

end Placed

/-! ### Which terms make no tree -/

section ofPostfix

variable {terms : List (Spanned (Term α))} {e : ParseError}

/-- A starved operator misses an operand. -/
theorem ofPostfix_of_starves {start : Nat} (h : Starves terms start) :
    ofPostfix terms = .error ⟨.missingOperand, .offset start⟩ := by
  obtain ⟨before, o, stop, after, rfl, hfed, hlt⟩ := h
  obtain ⟨stack, hlength, -, hrun⟩ := hfed.exists_ofPostfix_append
  rw [hrun]
  rcases stack with _ | ⟨right, _ | ⟨left, below⟩⟩
  · rfl
  · rfl
  · simp only [List.length_cons] at hlength
    omega

/-- Terms whose operators are all fed are none, or make a tree, or leave too many operands. -/
theorem Fed.ofPostfix_cases (h : Fed terms) :
    terms = [] ∨ (surplus terms = 1 ∧ ∃ t, ofPostfix terms = .ok t) ∨
      (1 < surplus terms ∧ ∃ start, LeavesLast terms 2 start ∧
        ofPostfix terms = .error ⟨.extraOperand, .offset start⟩) := by
  obtain ⟨stack, hlength, hplaced, hrun⟩ := h.exists_ofPostfix_append
  have hend := hrun []
  rw [List.append_nil, build] at hend
  generalize hbottom : stack.reverse = bottom at hend
  obtain rfl := List.reverse_eq_iff.1 hbottom
  rw [List.length_reverse] at hlength
  rcases bottom with _ | ⟨root, _ | ⟨extra, rest⟩⟩
  · left
    by_contra hne
    have := h.surplus_pos hne
    rw [hlength] at this
    exact Int.lt_irrefl 0 this
  · exact .inr (.inl ⟨hlength, _, hend⟩)
  · rw [List.reverse_cons, List.reverse_cons, List.append_assoc] at hplaced
    simp only [List.length_cons] at hlength
    exact .inr (.inr ⟨by omega, _, hplaced.leavesLast, hend⟩)

/-- Further behind, more are left over. -/
theorem lt_surplus_of_append_eq {before before' after after' : List (Spanned (Term α))}
    {s s' : Spanned (Term α)} {count : Int}
    (hafter : ∀ front, front <+: after → front ≠ [] → count < surplus (before ++ s :: front))
    (hsplit : before ++ s :: after = before' ++ s' :: after')
    (hlt : before.length < before'.length) : count < surplus (before' ++ [s']) := by
  rcases List.append_eq_append_iff.1 hsplit with ⟨middle, rfl, hrest⟩ | ⟨middle, rfl, -⟩
  · cases middle with
    | nil => simp at hlt
    | cons t middle =>
      obtain ⟨rfl, rfl⟩ := List.cons.inj (hrest.trans List.cons_append)
      have hmore := hafter (middle ++ [s']) (by simp) (by simp)
      rwa [List.append_assoc, List.cons_append]
  · simp only [List.length_append] at hlt
    omega

/-- The last term behind which a number of operands are left over is one term. -/
theorem LeavesLast.unique {count : Int} {start start' : Nat} (h : LeavesLast terms count start)
    (h' : LeavesLast terms count start') : start = start' := by
  obtain ⟨before, item, stop, after, rfl, hcount, hafter⟩ := h
  obtain ⟨before', item', stop', after', hsplit, hcount', hafter'⟩ := h'
  rcases Nat.lt_trichotomy before.length before'.length with hlt | heq | hlt
  · have := lt_surplus_of_append_eq hafter hsplit hlt
    omega
  · obtain ⟨rfl, hcons⟩ := List.append_inj hsplit heq
    cases hcons
    rfl
  · have := lt_surplus_of_append_eq hafter' hsplit.symm hlt
    omega

/-- A fault is what the terms are refused for. -/
theorem TermFault.ofPostfix_eq (h : TermFault terms e) : ofPostfix terms = .error e := by
  cases h with
  | starved h => exact ofPostfix_of_starves h
  | empty h =>
    rw [h]
    rfl
  | crowded hfed hmany hstart =>
    rcases hfed.ofPostfix_cases with rfl | ⟨hone, -⟩ | ⟨-, start, hstart', heq⟩
    · simp at hmany
    · omega
    · rw [heq, hstart.unique hstart']

/-- Terms make a tree unless they have a fault. -/
theorem ofPostfix_eq_error_iff : ofPostfix terms = .error e ↔ TermFault terms e := by
  refine ⟨fun h => ?_, TermFault.ofPostfix_eq⟩
  obtain ⟨e', hfault⟩ : ∃ e', TermFault terms e' := by
    rcases exists_starves_or_fed terms with ⟨start, hstarves⟩ | hfed
    · exact ⟨_, .starved hstarves⟩
    rcases hfed.ofPostfix_cases with hnil | ⟨-, t, hok⟩ | ⟨hmany, start, hstart, -⟩
    · exact ⟨_, .empty hnil⟩
    · cases hok.symm.trans h
    · exact ⟨_, .crowded hfed hmany hstart⟩
  obtain rfl : e' = e := Except.error.inj (hfault.ofPostfix_eq.symm.trans h)
  exact hfault

end ofPostfix

end Tree

namespace Arena

/-- An arena is the numbered tree whose postorder the terms are. -/
theorem ofPostfix_eq_ok_iff {terms : List (Spanned (Term α))} {a : Arena α} :
    ofPostfix terms = .ok a ↔ ∃ t : Tree α, terms.map (·.item) = t.postorder ∧ ofTree t = a := by
  simp only [ofPostfix_eq, Except.map_eq_ok_iff, Tree.ofPostfix_eq_ok_iff]

/-- Making an arena and going through it in postorder are inverse. The postorder of a tree makes an
arena that holds the tree at its last place. From any arena that is made, going through the tree at
its root gives back the terms and takes each place once. All other terms are refused: for the first
operator before which there are fewer than two operands more than operators, or else because there
are none at all, or else for an operand too many. -/
theorem ofPostfix_inverts_postorder (terms : List (Spanned (Term α))) :
    (∀ t : Tree α, terms.map (·.item) = t.postorder → ∃ a, ofPostfix terms = .ok a ∧
      a.root + 1 = a.nodes.size ∧ Node.Unfolds a.nodes.toList a.root t) ∧
    (∀ a, ofPostfix terms = .ok a → ∃ t, Node.Unfolds a.nodes.toList a.root t ∧
      t.postorder = terms.map (·.item) ∧
      Node.Visits a.nodes.toList a.root (List.range a.nodes.size)) ∧
    ∀ e, ofPostfix terms = .error e ↔ Tree.TermFault terms e := by
  have hsize (t : Tree α) : (ofTree t).nodes.size = t.size := by simp [ofTree, length_number]
  refine ⟨?_, ?_, ?_⟩
  · intro t ht
    refine ⟨ofTree t, ofPostfix_eq_ok_iff.2 ⟨t, ht, rfl⟩, ?_, unfolds_ofTree t⟩
    rw [hsize]
    exact Nat.sub_add_cancel t.size_pos
  · intro a ha
    obtain ⟨t, ht, rfl⟩ := ofPostfix_eq_ok_iff.1 ha
    refine ⟨t, unfolds_ofTree t, ht.symm, ?_⟩
    rw [hsize]
    exact visits_ofTree t
  · intro e
    rw [ofPostfix_eq, ← Tree.ofPostfix_eq_error_iff]
    cases Tree.ofPostfix terms <;> simp [Functor.map, Except.map]

end Arena

end ComplexFormula
