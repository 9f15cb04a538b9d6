import ComplexFormula.Tree

/-!
Building a tree from terms undoes listing them. A stack of trees stands for the terms read so far:
their postorders, one behind the other from the bottom, are exactly these terms. So a run of terms
builds a tree if and only if it is the postorder of that tree, and it builds no other.
-/

namespace ComplexFormula.Tree

variable {α β : Type}

/-- Another operand at each leaf. -/
def map (f : α → β) : Tree α → Tree β
  | leaf a => leaf (f a)
  | branch o l r => branch o (l.map f) (r.map f)

/-- A tree in place of each leaf. -/
def bind (f : α → Tree β) : Tree α → Tree β
  | leaf a => f a
  | branch o l r => branch o (l.bind f) (r.bind f)

theorem fold_map {γ : Type} (f : α → β) (g : β → γ) (apply : Operator → γ → γ → γ) (t : Tree α) :
    (t.map f).fold g apply = t.fold (g ∘ f) apply := by
  induction t with
  | leaf a => rfl
  | branch o l r hl hr => rw [map, fold, fold, hl, hr]

theorem fold_bind {γ : Type} (f : α → Tree β) (g : β → γ) (apply : Operator → γ → γ → γ)
    (t : Tree α) : (t.bind f).fold g apply = t.fold (fun a => (f a).fold g apply) apply := by
  induction t with
  | leaf a => rfl
  | branch o l r hl hr => rw [bind, fold, fold, hl, hr]

/-- Only the values at the leaves of the tree count. -/
theorem fold_congr {f g : α → β} {apply : Operator → β → β → β} {t : Tree α}
    (h : ∀ a, Term.operand a ∈ t.postorder → f a = g a) : t.fold f apply = t.fold g apply := by
  induction t with
  | leaf a => exact h a (by simp [postorder])
  | branch o l r hl hr =>
    rw [fold, fold, hl fun a ha => h a (by simp [postorder, ha]),
      hr fun a ha => h a (by simp [postorder, ha])]

/-- Putting trees in place of leaves puts their postorders in place of operands. -/
theorem postorder_bind (f : α → Tree β) (t : Tree α) :
    (t.bind f).postorder = t.postorder.flatMap fun
      | .operand a => (f a).postorder
      | .operator o => [.operator o] := by
  induction t with
  | leaf a => simp [bind, postorder]
  | branch o l r hl hr => simp [bind, postorder, hl, hr]

/-! ### Terms that are read build their tree -/

/-- The postorder of a tree leaves that tree on the stack, whatever stands there and follows. -/
theorem build_append_of_postorder {t : Tree α} {terms : List (Spanned (Term α))}
    (h : terms.map (·.item) = t.postorder) (stack : List (Pending α))
    (rest : List (Spanned (Term α))) :
    ∃ start, build stack (terms ++ rest) = build (⟨t, start⟩ :: stack) rest := by
  induction t generalizing terms stack rest with
  | leaf a =>
    obtain ⟨⟨_, start, stop⟩, rfl, rfl⟩ := List.map_eq_singleton_iff.1 h
    exact ⟨start, rfl⟩
  | branch o l r hl hr =>
    obtain ⟨operands, last, rfl, hoperands, hlast⟩ := List.map_eq_append_iff.1 h
    obtain ⟨left, right, rfl, hleft, hright⟩ := List.map_eq_append_iff.1 hoperands
    obtain ⟨⟨_, start, stop⟩, rfl, rfl⟩ := List.map_eq_singleton_iff.1 hlast
    obtain ⟨_, el⟩ := hl hleft stack (right ++ (⟨.operator o, start, stop⟩ :: rest))
    obtain ⟨_, er⟩ := hr hright (⟨l, _⟩ :: stack) (⟨.operator o, start, stop⟩ :: rest)
    refine ⟨start, ?_⟩
    simp only [List.append_assoc, List.singleton_append]
    rw [el, er, build]

/-! ### What is built lists the terms that were read -/

/-- The terms that a stack of trees stands for. -/
def pendingTerms (stack : List (Pending α)) : List (Term α) :=
  stack.reverse.flatMap (·.tree.postorder)

theorem pendingTerms_cons (p : Pending α) (stack : List (Pending α)) :
    pendingTerms (p :: stack) = pendingTerms stack ++ p.tree.postorder := by
  simp [pendingTerms]

theorem postorder_of_build {stack : List (Pending α)} {terms : List (Spanned (Term α))}
    {t : Tree α} (h : build stack terms = .ok t) :
    t.postorder = pendingTerms stack ++ terms.map (·.item) := by
  fun_induction build stack terms with
  | case1 => cases h
  | case2 stack root hstack =>
    cases h
    simp [pendingTerms, hstack]
  | case3 => cases h
  | case4 stack a start stop rest ih =>
    rw [ih h, pendingTerms_cons]
    simp [postorder]
  | case5 o start stop rest right left below ih =>
    rw [ih h, pendingTerms_cons, pendingTerms_cons, pendingTerms_cons]
    simp [postorder]
  | case6 => cases h

/-- A run of terms builds a tree exactly if it is the postorder of that tree. -/
theorem ofPostfix_eq_ok_iff {terms : List (Spanned (Term α))} {t : Tree α} :
    ofPostfix terms = .ok t ↔ terms.map (·.item) = t.postorder := by
  constructor
  · intro h
    simpa [pendingTerms] using (postorder_of_build h).symm
  · intro h
    obtain ⟨_, e⟩ := build_append_of_postorder h [] []
    rw [List.append_nil] at e
    rw [ofPostfix, e]
    rfl

end ComplexFormula.Tree
