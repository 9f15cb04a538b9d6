import ComplexFormula.Proofs.Composition

/-!
Texts put together with parentheses. A text in parentheses is read as it is read alone, whatever it
is, so parentheses around two texts and an operator between them, written or not, give the operator
with the trees of the two as its sides; and a `-` before the parenthesis gives a product with `-1`.
-/

namespace ComplexFormula

variable {α : Type}

namespace Layout

theorem length_breadthFirst (next : Nat) (queue : List (Tree α)) :
    (breadthFirst next queue).length = queueSize queue := by
  fun_induction breadthFirst next queue with
  | case1 => rfl
  | case2 next a queue ih =>
    simp only [List.length_cons, ih, queueSize, Tree.size]
    omega
  | case3 next o l r queue ih =>
    simp only [List.length_cons, ih, queueSize_append, queueSize, Tree.size]
    omega

/-- There is one node for each leaf and each branch. -/
theorem length_ofTree (t : Tree α) : (ofTree t).length = t.size := by
  simp [ofTree, length_breadthFirst, queueSize]

end Layout

/-! ### Reading what is put together -/

theorem Glyph.isNumeral_of_isNegatable {g : Glyph} (h : g.isNegatable = true) :
    g.isNumeral = false := by
  rw [← Bool.not_eq_true, ← charClass_eq_numeral_iff]
  intro hclass
  simp [isNegatable, hclass] at h

namespace Lexeme

/-- The characters are read to the end as the tokens, wherever they stand, as long as an operand is
awaited there or, for `awaited = false`, as long as none is. -/
def Reads (limit : Nat) (inner : Option Reader) (awaited : Bool) (cs : List Char)
    (ts : List (Token Atom)) : Prop :=
  ∀ (start : Nat) (before : Option Glyph), awaitsOperand before = awaited →
    ∃ ls, ls.map (·.item) = ts ∧ Scans limit inner before (glyphsFrom start cs) ls

section Reads

variable {limit : Nat} {inner : Option Reader} {awaited : Bool} {cs rest : List Char}
  {ts us : List (Token Atom)}

theorem reads_nil : Reads limit inner awaited [] [] :=
  fun _ before _ => ⟨[], rfl, .nil before⟩

/-- A text in parentheses is read as it is alone. -/
theorem Reads.group (hbody : Embeds limit inner ((glyphsFrom 0 cs).map (·.item)) ts)
    (hrest : Reads limit inner false rest us) :
    Reads limit inner awaited ('(' :: (cs ++ ')' :: rest))
      (.opening :: (ts ++ .closing :: us)) := by
  intro start before _
  have hopening (n : Nat) (cs : List Char) :
      glyphsFrom n ('(' :: cs) = ⟨'(', n, n + 1⟩ :: glyphsFrom (n + 1) cs := rfl
  have hclosing (n : Nat) (cs : List Char) :
      glyphsFrom n (')' :: cs) = ⟨')', n, n + 1⟩ :: glyphsFrom (n + 1) cs := rfl
  rw [hopening, glyphsFrom_append, hclosing]
  generalize start + 1 + (cs.map Char.utf8Size).sum = stop
  obtain ⟨tail, rfl, hscans⟩ := hrest (stop + 1) (some ⟨')', stop, stop + 1⟩) rfl
  have hitems : (glyphsFrom (start + 1) cs).map (·.item) = (glyphsFrom 0 cs).map (·.item) := by
    rw [items_glyphsFrom, items_glyphsFrom]
  have hitem (c : Char) (n : Nat) : Spanned.item ⟨c, n, n + 1⟩ = c := rfl
  obtain ⟨ls, rfl, hgroup⟩ := hbody.group (hitem '(' start) hitems (hitem ')' stop) hscans
  exact ⟨_, by simp [Spanned.map], hgroup⟩

/-- An operator behind an operand stands for itself. -/
theorem Reads.operator (o : Operator) (hrest : Reads limit inner true rest us) :
    Reads limit inner false (o.symbol :: rest) (.operator o :: us) := by
  intro start before hbefore
  have hglyphs : glyphsFrom start (o.symbol :: rest) =
      ⟨o.symbol, start, start + 1⟩ :: glyphsFrom (start + 1) rest := by
    cases o <;> rfl
  have hclass : Glyph.charClass ⟨o.symbol, start, start + 1⟩ = .operator o := by
    cases o <;> rfl
  have hawaits : awaitsOperand (some ⟨o.symbol, start, start + 1⟩) = true := by
    cases o <;> rfl
  obtain ⟨ls, hls, hscans⟩ := hrest (start + 1) _ hawaits
  have hread : readOne limit inner before ⟨o.symbol, start, start + 1⟩
      (glyphsFrom (start + 1) rest) = .ok (.single (.operator o) ⟨o.symbol, start, start + 1⟩
        (glyphsFrom (start + 1) rest)) := by
    simp [readOne, hclass, hbefore]
  rw [hglyphs]
  exact ⟨_, by simp [Reading.single, Spanned.map, hls], .cons hread hscans⟩

/-- Where an operand is awaited, a `-` in front of what it can negate is a factor. -/
theorem Reads.sign (h : Reads limit inner true cs ts)
    (hcs : (glyphsFrom 0 cs).head?.any Glyph.isNegatable = true) :
    Reads limit inner true ('-' :: cs) (.operand (.number .minusOne) :: .operator .mul :: ts) := by
  intro start before hbefore
  obtain ⟨ls, hls, hscans⟩ := h (start + 1) (some ⟨'-', start, start + 1⟩) rfl
  have hglyphs : glyphsFrom start ('-' :: cs) =
      ⟨'-', start, start + 1⟩ :: glyphsFrom (start + 1) cs := rfl
  have hclass : Glyph.charClass ⟨'-', start, start + 1⟩ = .operator .sub := rfl
  rw [hglyphs]
  generalize hrest : glyphsFrom (start + 1) cs = rest at hscans
  obtain ⟨next, hnext, hnegatable⟩ : ∃ next, rest.head? = some next ∧ next.isNegatable = true := by
    obtain ⟨next, hnext, hnegatable⟩ := (Option.any_eq_true _ _).1 hcs
    have hitems : (rest.map (·.item)).head? = ((glyphsFrom 0 cs).map (·.item)).head? := by
      rw [← hrest, items_glyphsFrom, items_glyphsFrom]
    rw [List.head?_map, List.head?_map, hnext] at hitems
    obtain ⟨next', hnext', hitem⟩ := Option.map_eq_some_iff.1 hitems
    exact ⟨next', hnext', (Glyph.isNegatable_congr hitem).trans hnegatable⟩
  have hread : readOne limit inner before ⟨'-', start, start + 1⟩ rest =
      .ok ⟨[⟨.operand (.number .minusOne), start, start + 1⟩, ⟨.operator .mul, start, start + 1⟩],
        ⟨'-', start, start + 1⟩, rest⟩ := by
    have hsign : readOne limit inner before ⟨'-', start, start + 1⟩ rest =
        readSign ⟨'-', start, start + 1⟩ rest := by
      simp [readOne, hclass, hbefore]
    rw [hsign, readSign_of_not_isNumeral]
    · simp [hnext, hnegatable, Spanned.map]
    · simp [hnext, Glyph.isNumeral_of_isNegatable hnegatable]
  exact ⟨_, by simp [hls], .cons hread hscans⟩

end Reads

end Lexeme

namespace Token

variable (us rest : List (Token Atom))

/-- Between a group and what is before it, a `*` is read if an operand ends there. -/
theorem multiplyFrom_group : multiplyFrom false (.opening :: (us ++ .closing :: rest)) =
    .opening :: (multiplyFrom false us ++ .closing :: multiplyFrom true rest) := by
  rw [multiplyFrom, if_neg (by simp)]
  exact congrArg _ (multiplyFrom_append_closing false us rest)

theorem multiplyFrom_group_of_ended : multiplyFrom true (.opening :: (us ++ .closing :: rest)) =
    .operator .mul :: .opening ::
      (multiplyFrom false us ++ .closing :: multiplyFrom true rest) := by
  rw [multiplyFrom, if_pos (by rfl)]
  exact congrArg _ (congrArg _ (multiplyFrom_append_closing false us rest))

end Token

namespace Postfix

variable {limit : Nat} {us vs rest : List (Token α)} {ss ts : List (Term α)}

/-- Tokens in parentheses in front are arranged as they are alone. -/
theorem order?_group_nil {waiting : List Operator} (h : order? limit [] [] us = some ss) :
    order? (limit + 1) waiting [] (.opening :: (us ++ .closing :: rest)) =
      (order? (limit + 1) waiting [] rest).map (ss ++ ·) :=
  order?_group h (Nat.le_refl (limit + ([] : List (List Operator)).length + 1))

theorem order?_groups (hs : order? limit [] [] us = some ss) (ht : order? limit [] [] vs = some ts)
    (o : Operator) : order? (limit + 1) [] []
      (.opening :: (us ++ .closing :: .operator o :: .opening :: (vs ++ [.closing]))) =
        some (ss ++ ts ++ [.operator o]) := by
  rw [order?_group_nil hs, order?, List.dropWhile_nil, order?_group_nil ht]
  simp [order?]

end Postfix

namespace Formula

/-- A text that can be read with one limit can be read in parentheses with a higher one. -/
theorem embeds_of_tree {text : String} {limit limit' : Nat} {t : Tree Atom}
    (h : (Formula.mk text limit).tree = .ok t) (hlimit : limit ≤ limit') :
    ∃ ts, Lexeme.Embeds limit' (Lexeme.innerReader limit' limit')
        ((glyphsFrom 0 text.toList).map (·.item)) ts ∧
      Postfix.order? limit [] [] (Token.multiplyFrom false ts) = some t.postorder := by
  obtain ⟨ls, hls, horder⟩ := tree_eq_ok_iff.1 h
  obtain ⟨scanned, hscans, rfl⟩ := lexemes_eq_ok_iff.1 hls
  rw [Lexeme.items_multiply] at horder
  exact ⟨_, hscans.embeds (Lexeme.innerReader_refines hlimit) rfl, horder⟩

theorem tree_of_reads {text : String} {limit : Nat} {ts : List (Token Atom)} {t : Tree Atom}
    (h : Lexeme.Reads limit (Lexeme.innerReader limit limit) true text.toList ts)
    (ht : Postfix.order? limit [] [] (Token.multiplyFrom false ts) = some t.postorder) :
    (Formula.mk text limit).tree = .ok t := by
  obtain ⟨ls, hls, hscans⟩ := h 0 none rfl
  refine tree_eq_ok_iff.2 ⟨Lexeme.multiply ls, lexemes_eq_ok_iff.2 ⟨ls, hscans, rfl⟩, ?_⟩
  rw [Lexeme.items_multiply, hls, ht]

section Group

variable {s t : String} {limit : Nat} {u v : Tree Atom}

theorem tree_group (hs : (Formula.mk s limit).tree = .ok u) :
    (Formula.mk ("(" ++ s ++ ")") (limit + 1)).tree = .ok u := by
  obtain ⟨us, hembeds, horder⟩ := embeds_of_tree hs (Nat.le_succ limit)
  have hreads : Lexeme.Reads (limit + 1) (Lexeme.innerReader (limit + 1) (limit + 1)) true
      ("(" ++ s ++ ")").toList (.opening :: (us ++ [.closing])) := by
    simpa using Lexeme.Reads.group hembeds Lexeme.reads_nil
  refine tree_of_reads hreads ?_
  rw [Token.multiplyFrom_group, Postfix.order?_group_nil horder]
  simp [Token.multiplyFrom, Postfix.order?]

theorem tree_operator (hs : (Formula.mk s limit).tree = .ok u)
    (ht : (Formula.mk t limit).tree = .ok v) (o : Operator) :
    (Formula.mk ("(" ++ s ++ ")" ++ o.symbol.toString ++ "(" ++ t ++ ")") (limit + 1)).tree =
      .ok (.branch o u v) := by
  obtain ⟨us, hus, hu⟩ := embeds_of_tree hs (Nat.le_succ limit)
  obtain ⟨vs, hvs, hv⟩ := embeds_of_tree ht (Nat.le_succ limit)
  have hreads : Lexeme.Reads (limit + 1) (Lexeme.innerReader (limit + 1) (limit + 1)) true
      ("(" ++ s ++ ")" ++ o.symbol.toString ++ "(" ++ t ++ ")").toList
      (.opening :: (us ++ .closing :: .operator o :: .opening :: (vs ++ [.closing]))) := by
    simpa using Lexeme.Reads.group hus (.operator o (.group hvs Lexeme.reads_nil))
  refine tree_of_reads hreads ?_
  have hsign : Token.multiplyFrom true (.operator o :: .opening :: (vs ++ [.closing])) =
      .operator o :: Token.multiplyFrom false (.opening :: (vs ++ [.closing])) := rfl
  rw [Token.multiplyFrom_group, hsign, Token.multiplyFrom_group]
  exact Postfix.order?_groups hu hv o

/-- Nothing between two groups is the same as a `*`. -/
theorem tree_juxtaposition (hs : (Formula.mk s limit).tree = .ok u)
    (ht : (Formula.mk t limit).tree = .ok v) :
    (Formula.mk ("(" ++ s ++ ")(" ++ t ++ ")") (limit + 1)).tree = .ok (.branch .mul u v) := by
  obtain ⟨us, hus, hu⟩ := embeds_of_tree hs (Nat.le_succ limit)
  obtain ⟨vs, hvs, hv⟩ := embeds_of_tree ht (Nat.le_succ limit)
  have hreads : Lexeme.Reads (limit + 1) (Lexeme.innerReader (limit + 1) (limit + 1)) true
      ("(" ++ s ++ ")(" ++ t ++ ")").toList
      (.opening :: (us ++ .closing :: .opening :: (vs ++ [.closing]))) := by
    simpa using Lexeme.Reads.group hus (.group hvs Lexeme.reads_nil)
  refine tree_of_reads hreads ?_
  rw [Token.multiplyFrom_group, Token.multiplyFrom_group_of_ended]
  exact Postfix.order?_groups hu hv .mul

theorem tree_negation (hs : (Formula.mk s limit).tree = .ok u) :
    (Formula.mk ("-(" ++ s ++ ")") (limit + 1)).tree =
      .ok (.branch .mul (.leaf (.number .minusOne)) u) := by
  obtain ⟨us, hus, hu⟩ := embeds_of_tree hs (Nat.le_succ limit)
  have hreads : Lexeme.Reads (limit + 1) (Lexeme.innerReader (limit + 1) (limit + 1)) true
      ("-(" ++ s ++ ")").toList
      (.operand (.number .minusOne) :: .operator .mul :: .opening :: (us ++ [.closing])) := by
    simpa using Lexeme.Reads.sign (.group hus Lexeme.reads_nil) rfl
  refine tree_of_reads hreads ?_
  have hsign : Token.multiplyFrom false
      (.operand (.number .minusOne) :: .operator .mul :: .opening :: (us ++ [.closing])) =
        .operand (.number .minusOne) :: .operator .mul ::
          Token.multiplyFrom false (.opening :: (us ++ [.closing])) := rfl
  rw [hsign, Token.multiplyFrom_group, Postfix.order?, Postfix.order?, Postfix.order?_group_nil hu]
  simp [Token.multiplyFrom, Postfix.order?, Tree.postorder]

end Group

end Formula

/-! ### The expressions -/

/-- An expression that holds two others, node for node, as the sides of an operator at its root, and
has what the operator makes of their values as its value. -/
structure Expression.Joins (e : Expression) (o : Operator) (left right : Expression) : Prop where
  sides : ∃ l r, e.root? = some (.branch o l r) ∧
    (∃ t, Node.Unfolds left.nodes 0 t ∧ Node.Unfolds e.nodes l t) ∧
    ∃ t, Node.Unfolds right.nodes 0 t ∧ Node.Unfolds e.nodes r t
  length : e.nodes.length = left.nodes.length + right.nodes.length + 1
  evaluate : ∀ x, e.evaluate x = o.apply (left.evaluate x) (right.evaluate x)

namespace Expression

theorem length_ofTree (t : Tree Atom) : (ofTree t).nodes.length = t.size := by
  rw [ofTree, nodes_ofNodes, List.length_map, Layout.length_ofTree]

theorem joins_branch (o : Operator) (u v : Tree Atom) :
    (ofTree (.branch o u v)).Joins o (ofTree u) (ofTree v) where
  sides := by
    have hroot : Node.Unfolds (ofTree (.branch o u v)).nodes 0
        (.branch o (u.map Atom.fold) (v.map Atom.fold)) := unfolds_ofTree (.branch o u v)
    cases hroot with
    | branch h hl hr =>
      refine ⟨_, _, ?_, ⟨_, unfolds_ofTree u, hl⟩, _, unfolds_ofTree v, hr⟩
      rw [root?, List.head?_eq_getElem?, h]
  length := by simp only [length_ofTree, Tree.size]
  evaluate x := by simp only [evaluate_ofTree, Tree.fold]

/-- A number is an expression of a single node. -/
theorem ofTree_number (z : ComplexFloat) :
    ofTree (.leaf (.number z)) = ⟨[.leaf (.number z)]⟩ := by
  have hnodes : Layout.ofTree (Tree.leaf (Atom.number z)) = [.leaf (.number z)] := by
    simp [Layout.ofTree, Layout.breadthFirst]
  rw [ofTree, hnodes]
  rfl

end Expression

/-- Two texts in parentheses with an operator between them are read as the operator with what they
are read as on its sides, where nothing between them stands for a `*`. One text in parentheses is
read as it is alone, and with a `-` in front as its product with `-1`. -/
theorem Formula.build_group {s t : String} {limit : Nat} {S T : Expression}
    (hs : (Formula.mk s limit).build = .ok S) (ht : (Formula.mk t limit).build = .ok T) :
    (∀ o : Operator, ∃ e,
      (Formula.mk ("(" ++ s ++ ")" ++ o.symbol.toString ++ "(" ++ t ++ ")") (limit + 1)).build =
        .ok e ∧ e.Joins o S T) ∧
    (Formula.mk ("(" ++ s ++ ")") (limit + 1)).build = .ok S ∧
    (∃ e, (Formula.mk ("(" ++ s ++ ")(" ++ t ++ ")") (limit + 1)).build = .ok e ∧
      (Formula.mk ("(" ++ s ++ ")*(" ++ t ++ ")") (limit + 1)).build = .ok e) ∧
    ∃ e, (Formula.mk ("-(" ++ s ++ ")") (limit + 1)).build = .ok e ∧
      e.Joins .mul ⟨[.leaf (.number .minusOne)]⟩ S := by
  rw [build_eq] at hs ht
  obtain ⟨u, hu, rfl⟩ := Except.map_eq_ok_iff.1 hs
  obtain ⟨v, hv, rfl⟩ := Except.map_eq_ok_iff.1 ht
  refine ⟨?_, ?_, ?_, ?_⟩
  · intro o
    exact ⟨_, build_of_tree (tree_operator hu hv o), Expression.joins_branch o u v⟩
  · exact build_of_tree (tree_group hu)
  · have hproduct := build_of_tree (tree_operator hu hv .mul)
    have htext : "(" ++ s ++ ")" ++ Operator.mul.symbol.toString ++ "(" ++ t ++ ")" =
        "(" ++ s ++ ")*(" ++ t ++ ")" := by
      rw [← String.toList_inj]
      simp [Operator.symbol]
    rw [htext] at hproduct
    exact ⟨_, build_of_tree (tree_juxtaposition hu hv), hproduct⟩
  · have hjoins := Expression.joins_branch .mul (.leaf (.number .minusOne)) u
    rw [Expression.ofTree_number] at hjoins
    exact ⟨_, build_of_tree (tree_negation hu), hjoins⟩

theorem Formula.build_group_power : ∃ e, (Formula.mk "(x-x)^(-sin(x))" 2).build = .ok e ∧
    e.nodes.length = 7 ∧ ∀ x, e.evaluate x = (x - x).pow (.minusOne * x.sin) := by
  have hdifference : (Formula.mk "x-x" 1).tree =
      .ok (.branch .sub (.leaf .free) (.leaf .free)) := by
    decide +kernel
  have hnegation : (Formula.mk "-sin(x)" 1).tree =
      .ok (.branch .mul (.leaf (.number .minusOne)) (.leaf (.unary .sin .free))) := by
    decide +kernel
  obtain ⟨e, he, hjoins⟩ :=
    (build_group (build_of_tree hdifference) (build_of_tree hnegation)).1 .pow
  have htext : "(" ++ "x-x" ++ ")" ++ Operator.pow.symbol.toString ++ "(" ++ "-sin(x)" ++ ")" =
      "(x-x)^(-sin(x))" := by
    decide +kernel
  refine ⟨e, htext ▸ he, ?_, ?_⟩
  · rw [hjoins.length, Expression.length_ofTree, Expression.length_ofTree]
    rfl
  · intro x
    rw [hjoins.evaluate, Expression.evaluate_ofTree, Expression.evaluate_ofTree]
    rfl

end ComplexFormula
