import ComplexFormula.Proofs.Blame
import ComplexFormula.Proofs.Grouping
import ComplexFormula.Proofs.Recognition

/-!
A power can be written as a call of `pow` or with the operator `^`. The call is put together while
its text is read and is a single operand, which carries its value if it is constant; the operator
joins two operands in the tree, and its value is found at the root. Both are the same power of the
same values.
-/

namespace ComplexFormula

open Atom (Written)

/-- A call of two arguments that is ready carries its value exactly if they are constant. -/
theorem Atom.exists_fold_binary (f : Builtin.Binary) (a b : Atom) : ∃ memo : Memo,
    (binary f a b).fold = .binary f a.fold b.fold memo ∧
      (memo.value?.isSome = true ↔ a.fold.isChanging = false ∧ b.fold.isChanging = false) := by
  rw [fold_binary]
  cases a.fold.isChanging <;> cases b.fold.isChanging <;> exact ⟨_, rfl, by simp⟩

namespace Expression

theorem nodes_ofTree_leaf (a : Atom) : (ofTree (.leaf a)).nodes = [.leaf a.fold] := by
  simp [ofTree, nodes_ofNodes, Layout.ofTree, Layout.breadthFirst, Node.map]

theorem nodes_ofTree_branch (o : Operator) (a b : Atom) :
    (ofTree (.branch o (.leaf a) (.leaf b))).nodes =
      [.branch o 1 2, .leaf a.fold, .leaf b.fold] := by
  simp [ofTree, nodes_ofNodes, Layout.ofTree, Layout.breadthFirst, Node.map]

end Expression

namespace Formula

variable {s t : String} {limit : Nat} {a b : Atom}

theorem IsOperand.exists_written (h : (Formula.mk t limit).IsOperand) :
    ∃ a, Written (Text.spelling t) a ∧ a.callDepth ≤ limit := by
  obtain ⟨l, a, hl, hitem⟩ := h
  have hwritten := Lexeme.recognizes_read _ _ (Glyph.small_glyphs t) hl hitem
  rw [glyphs, items_glyphsFrom] at hwritten
  exact ⟨a, hwritten, Lexeme.depthAtMost_singleton.1 (Lexeme.depthAtMost_of_read hl) a hitem⟩

theorem tree_pow (hs : Written (Text.spelling s) a) (ht : Written (Text.spelling t) b)
    (ha : a.callDepth ≤ limit) (hb : b.callDepth ≤ limit) :
    (Formula.mk ("pow(" ++ s ++ "," ++ t ++ ")") (limit + 1)).tree =
      .ok (.leaf (.binary .pow a b)) := by
  have hspelling : Text.spelling ("pow(" ++ s ++ "," ++ t ++ ")") =
      Builtin.Binary.pow.name.toList ++
        '(' :: (Text.spelling s ++ ',' :: (Text.spelling t ++ [')'])) := by
    have hfront : Text.spelling "pow(" = Builtin.Binary.pow.name.toList ++ ['('] := by decide
    have hcomma : Text.spelling "," = [','] := by decide
    have hclosing : Text.spelling ")" = [')'] := by decide
    simp only [Text.spelling_append, hfront, hcomma, hclosing, List.append_assoc,
      List.cons_append, List.nil_append]
  refine tree_of_written (hspelling ▸ hs.binary .pow ht) ?_
  exact Nat.succ_le_succ (Nat.max_le.2 ⟨ha, hb⟩)

/-- Operands are raised to each other by the call of `pow` as by `^`. The call is one leaf, which
carries its value exactly if neither operand changes, and `^` is a branch above the two. -/
theorem evaluate_pow_eq_power (hs : (Formula.mk s limit).IsOperand)
    (ht : (Formula.mk t limit).IsOperand) : ∃ P Q,
      (Formula.mk ("pow(" ++ s ++ "," ++ t ++ ")") (limit + 1)).build = .ok P ∧
      (Formula.mk ("(" ++ s ++ ")^(" ++ t ++ ")") (limit + 1)).build = .ok Q ∧
      (∃ a b memo, P.nodes = [.leaf (.binary .pow a b memo)] ∧
        Q.nodes = [.branch .pow 1 2, .leaf a, .leaf b] ∧
        (memo.value?.isSome = true ↔ a.isChanging = false ∧ b.isChanging = false)) ∧
      ∀ x, P.evaluate x = Q.evaluate x := by
  obtain ⟨a, hsa, ha⟩ := hs.exists_written
  obtain ⟨b, htb, hb⟩ := ht.exists_written
  have hP := tree_pow hsa htb ha hb
  have hQ := tree_operator (tree_of_written hsa ha) (tree_of_written htb hb) .pow
  have htext : "(" ++ s ++ ")" ++ Operator.pow.symbol.toString ++ "(" ++ t ++ ")" =
      "(" ++ s ++ ")^(" ++ t ++ ")" := by
    rw [← String.toList_inj]
    simp [Operator.symbol]
  rw [htext] at hQ
  refine ⟨_, _, build_of_tree hP, build_of_tree hQ, ?_, fun x => ?_⟩
  · obtain ⟨memo, hfold, hmemo⟩ := Atom.exists_fold_binary .pow a b
    have hcall := Expression.nodes_ofTree_leaf (.binary .pow a b)
    have hbranch := Expression.nodes_ofTree_branch .pow a b
    exact ⟨a.fold, b.fold, memo, hfold ▸ hcall, hbranch, hmemo⟩
  · rw [Expression.evaluate_ofTree, Expression.evaluate_ofTree]
    rfl

/-- The square of a sine. -/
theorem evaluate_pow_eq_power_sine : ∃ P Q, (Formula.mk "pow(sin(x),2)" 2).build = .ok P ∧
    (Formula.mk "(sin(x))^(2)" 2).build = .ok Q ∧ ∀ x, P.evaluate x = Q.evaluate x := by
  have hsine : (Formula.mk "sin(x)" 1).IsOperand :=
    ⟨⟨.operand (.unary .sin .free), 0, 6⟩, _, by decide +kernel, rfl⟩
  have htwo : (Formula.mk "2" 1).IsOperand :=
    ⟨⟨.operand (.number ⟨2, 0⟩), 0, 1⟩, _, by decide +kernel, rfl⟩
  obtain ⟨P, Q, hP, hQ, -, hvalue⟩ := evaluate_pow_eq_power hsine htwo
  have htextP : "pow(" ++ "sin(x)" ++ "," ++ "2" ++ ")" = "pow(sin(x),2)" := by decide +kernel
  have htextQ : "(" ++ "sin(x)" ++ ")^(" ++ "2" ++ ")" = "(sin(x))^(2)" := by decide +kernel
  rw [htextP] at hP
  rw [htextQ] at hQ
  exact ⟨P, Q, hP, hQ, hvalue⟩

end Formula

end ComplexFormula
