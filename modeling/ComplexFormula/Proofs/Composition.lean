import ComplexFormula.Formula
import ComplexFormula.Proofs.Evaluation
import ComplexFormula.Proofs.Offsets
import ComplexFormula.Proofs.Reordering
import Mathlib.Algebra.Ring.Nat

/-!
Composition of formulas. One formula in parentheses in place of the variable of another one is read
as the tree of the other one with its own tree at the leaves where the variable stood, and so its
value is the value of the other one at its own value.
-/

namespace ComplexFormula

/-- A text in parentheses reads as its glyphs in parentheses. -/
theorem inParentheses_glyphsFrom {g : Glyph} (hg : g.item = 'x') (body : List Char) (start : Nat) :
    Lexeme.InParentheses ((glyphsFrom 0 body).map (·.item)) g
      (glyphsFrom start ('(' :: (body ++ [')']))) := by
  have hopening (n : Nat) (us : List Char) :
      glyphsFrom n ('(' :: us) = ⟨'(', n, n + 1⟩ :: glyphsFrom (n + 1) us := rfl
  have hclosing (n : Nat) : glyphsFrom n [')'] = [⟨')', n, n + 1⟩] := rfl
  rw [hopening, glyphsFrom_append, hclosing]
  refine ⟨hg, _, _, _, rfl, rfl, ?_, rfl⟩
  rw [items_glyphsFrom, items_glyphsFrom]

/-- The tree that stands in place of an operand if another one is put in place of the variable. -/
def Tree.substitute (inside : Tree Atom) : Atom → Tree Atom
  | .free => inside
  | a => .leaf a

theorem Tree.postorder_substitute (inside t : Tree Atom) :
    (t.bind (substitute inside)).postorder =
      t.postorder.flatMap (Term.substitute inside.postorder) := by
  rw [postorder_bind]
  refine List.flatMap_congr fun term _ => ?_
  rcases term with (_ | _ | _ | _) | _ <;> rfl

namespace Formula

/-- The byte offsets at which the variable stands outside calls. -/
def freePlaces (f : Formula) : List Nat :=
  match f.lexemes with
  | .ok ls => (ls.filter (·.item.isFree)).map (·.start)
  | .error _ => []

/-- The formula with another one in parentheses in place of the variable. Its parentheses nest as
deep as those of both and the new ones. -/
def compose (f g : Formula) : Formula where
  text := String.ofList (replaceFrom f.freePlaces.contains
    (fun _ => '(' :: (g.text.toList ++ [')'])) 0 f.text.toList)
  depthLimit := f.depthLimit + g.depthLimit + 1

variable {f g : Formula} {ls ms : List Lexeme}

theorem contains_freePlaces (h : f.lexemes = .ok ls) {o : Nat} :
    f.freePlaces.contains o = true ↔ ∃ l ∈ ls, l.item.isFree = true ∧ l.start = o := by
  simp [freePlaces, h, and_assoc]

/-- The tokens of the other formula, in parentheses, stand in place of the variable. -/
theorem lexemes_compose (hf : f.lexemes = .ok ls) (hg : g.lexemes = .ok ms) :
    ∃ us, (f.compose g).lexemes = .ok us ∧
      us.map (·.item) = (ls.map (·.item)).flatMap (Token.substitute (ms.map (·.item))) := by
  obtain ⟨outer, houter, rfl⟩ := lexemes_eq_ok_iff.1 hf
  obtain ⟨inner, hinner, rfl⟩ := lexemes_eq_ok_iff.1 hg
  have hplace {o : Nat} : f.freePlaces.contains o = true ↔
      ∃ l ∈ outer, l.item.isFree = true ∧ l.start = o := by
    rw [contains_freePlaces hf]
    refine exists_congr fun l => ?_
    rw [and_left_comm, and_left_comm (a := l ∈ outer)]
    exact and_congr_right fun hfree => by rw [Lexeme.mem_multiply_iff hfree]
  have hlimits : f.depthLimit ≤ (f.compose g).depthLimit ∧
      g.depthLimit ≤ (f.compose g).depthLimit := by
    simp only [compose]
    omega
  have hembeds : Lexeme.Embeds (f.compose g).depthLimit
      (Lexeme.innerReader (f.compose g).depthLimit (f.compose g).depthLimit)
      ((glyphs g.text).map (·.item)) (inner.map (·.item)) :=
    hinner.embeds (Lexeme.innerReader_refines hlimits.2) rfl
  have hreaders : Lexeme.InnerRefines (Lexeme.innerReader f.depthLimit f.depthLimit)
      (Lexeme.innerReader (f.compose g).depthLimit (f.compose g).depthLimit) :=
    Lexeme.innerReader_refines hlimits.1
  have hplaced : Lexeme.Placed f.freePlaces.contains (glyphs f.text) outer :=
    .inr ⟨pairwise_glyphsFrom 0 _, fun g _ hg => hplace.1 hg⟩
  have hexpands : Replaces f.freePlaces.contains
      (Lexeme.InParentheses ((glyphs g.text).map (·.item))) (glyphs f.text)
      (glyphs (f.compose g).text) := by
    rw [glyphs, glyphs, glyphs, compose, String.toList_ofList]
    refine replaces_glyphsFrom (Q := (·.item = 'x'))
      (fun _ _ start' _ hitem => inParentheses_glyphsFrom hitem _ start') (fun o _ ho => ?_) 0
    obtain ⟨l, hl, hfree, hstart⟩ := hplace.1 ho
    obtain ⟨u, hu, hu', hitem⟩ := houter.exists_start hreaders hl
    exact ⟨u, hu, hu'.symm.trans hstart, hitem hfree⟩
  have hstops : Lexeme.Stops [] := by simp [Lexeme.Stops]
  obtain ⟨scanned, hscanned, hscans⟩ :=
    houter.expand hreaders (.inr hembeds) hplaced hexpands rfl hstops .nil
  rw [List.append_nil, List.append_nil] at hscans
  refine ⟨Lexeme.multiply scanned, lexemes_eq_ok_iff.2 ⟨scanned, hscans, rfl⟩, ?_⟩
  rw [Lexeme.items_multiply, Lexeme.items_multiply, Lexeme.items_multiply, hscanned,
    ← Token.multiplyFrom_substitute, List.flatMap_map]
  congr 1
  refine List.flatMap_congr fun l hl => ?_
  cases hfree : l.item.isFree with
  | true =>
    rw [Lexeme.expand, Token.substitute, hplace.2 ⟨l, hl, hfree, rfl⟩, hfree]
    rfl
  | false => simp [Lexeme.expand, Token.substitute, hfree]

/-- The tree of the other formula stands at the leaves of the variable. -/
theorem tree_compose {s t : Tree Atom} (hf : f.tree = .ok s) (hg : g.tree = .ok t) :
    (f.compose g).tree = .ok (s.bind (Tree.substitute t)) := by
  obtain ⟨ls, hls, hs⟩ := tree_eq_ok_iff.1 hf
  obtain ⟨ms, hms, ht⟩ := tree_eq_ok_iff.1 hg
  obtain ⟨ns, hns, hitems⟩ := lexemes_compose hls hms
  refine tree_eq_ok_iff.2 ⟨ns, hns, ?_⟩
  rw [hitems, Tree.postorder_substitute]
  exact Postfix.order?_substitute ht hs (Nat.zero_le _)

/-- The variable stands in no call. -/
def CallsConstant (f : Formula) : Prop :=
  ∀ ls, f.lexemes = .ok ls → ∀ a, .operand a ∈ ls.map (·.item) → a.hasVariable = true → a = .free

/-- The operands of the tree are those of the text. -/
theorem mem_lexemes_of_mem_postorder {s : Tree Atom} (hf : f.tree = .ok s) {a : Atom}
    (ha : .operand a ∈ s.postorder) : ∃ ls, f.lexemes = .ok ls ∧ .operand a ∈ ls.map (·.item) := by
  obtain ⟨ls, hls, horder⟩ := tree_eq_ok_iff.1 hf
  exact ⟨ls, hls, Postfix.mem_of_order? horder ha⟩

/-- A formula whose calls are constant can be put together with any other, and the value of the
whole is the value of the one at the value of the other. -/
theorem evaluate_compose {S T : Expression} (hf : f.build = .ok S) (hg : g.build = .ok T)
    (hcalls : f.CallsConstant) :
    ∃ U, (f.compose g).build = .ok U ∧ ∀ z, U.evaluate z = S.evaluate (T.evaluate z) := by
  rw [build_eq] at hf hg
  obtain ⟨s, hs, rfl⟩ := Except.map_eq_ok_iff.1 hf
  obtain ⟨t, ht, rfl⟩ := Except.map_eq_ok_iff.1 hg
  refine ⟨.ofTree (s.bind (Tree.substitute t)), build_of_tree (tree_compose hs ht), ?_⟩
  intro z
  rw [Expression.evaluate_ofTree, Expression.evaluate_ofTree, Expression.evaluate_ofTree,
    Tree.fold_bind]
  refine Tree.fold_congr fun a ha => ?_
  obtain ⟨ls, hls, hmem⟩ := mem_lexemes_of_mem_postorder hs ha
  cases hvariable : a.hasVariable with
  | true =>
    obtain rfl := hcalls ls hls a hmem hvariable
    rfl
  | false =>
    have hleaf : Tree.substitute t a = .leaf a := by
      cases a <;> first | rfl | cases hvariable
    rw [hleaf, Tree.fold]
    exact Atom.evaluate_eq_of_not_hasVariable hvariable _ _

theorem evaluate_compose_power_difference :
    ((Formula.mk "x^x" 0).compose (Formula.mk "x-x" 0)).text = "(x-x)^(x-x)" ∧
      ∃ U, ((Formula.mk "x^x" 0).compose (Formula.mk "x-x" 0)).build = .ok U ∧
        ∀ z, U.evaluate z = (z - z).pow (z - z) := by
  have hpowerScans : Lexeme.Scans 0 none none [⟨'x', 0, 1⟩, ⟨'^', 1, 2⟩, ⟨'x', 2, 3⟩] _ :=
    .cons rfl (.cons rfl (.cons rfl (.nil _)))
  have hpower : (Formula.mk "x^x" 0).lexemes =
      .ok [⟨.operand .free, 0, 1⟩, ⟨.operator .pow, 1, 2⟩, ⟨.operand .free, 2, 3⟩] :=
    lexemes_eq_ok_iff.2 ⟨_, hpowerScans, rfl⟩
  have hdifferenceScans : Lexeme.Scans 0 none none [⟨'x', 0, 1⟩, ⟨'-', 1, 2⟩, ⟨'x', 2, 3⟩] _ :=
    .cons rfl (.cons rfl (.cons rfl (.nil _)))
  have hdifference : (Formula.mk "x-x" 0).lexemes =
      .ok [⟨.operand .free, 0, 1⟩, ⟨.operator .sub, 1, 2⟩, ⟨.operand .free, 2, 3⟩] :=
    lexemes_eq_ok_iff.2 ⟨_, hdifferenceScans, rfl⟩
  have hpowerTree : (Formula.mk "x^x" 0).tree =
      .ok (.branch .pow (.leaf .free) (.leaf .free)) := by
    rw [tree, terms, hpower]
    rfl
  have hdifferenceTree : (Formula.mk "x-x" 0).tree =
      .ok (.branch .sub (.leaf .free) (.leaf .free)) := by
    rw [tree, terms, hdifference]
    rfl
  have hcalls : (Formula.mk "x^x" 0).CallsConstant := by
    intro ls hls a ha _
    obtain rfl := Except.ok.inj (hls.symm.trans hpower)
    simpa using ha
  refine ⟨?_, ?_⟩
  · rw [compose, freePlaces, hpower]
    rfl
  · obtain ⟨U, hU, hvalue⟩ :=
      evaluate_compose (build_of_tree hpowerTree) (build_of_tree hdifferenceTree) hcalls
    refine ⟨U, hU, fun z => ?_⟩
    rw [hvalue, Expression.evaluate_ofTree, Expression.evaluate_ofTree]
    rfl

end Formula

end ComplexFormula
