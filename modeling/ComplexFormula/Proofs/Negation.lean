import ComplexFormula.Proofs.Grouping
import ComplexFormula.Proofs.Interpretation
import ComplexFormula.Proofs.Limitation
import ComplexFormula.Proofs.Steps
import Mathlib.Tactic.Ring

/-!
A `-` in front of an operand that is no number is read as `-1 *`. That product is not kept together:
an operator in front that binds before `*` takes the `-1` alone. Behind `+`, `-` and `*` the operand
is negated all the same; behind `/` it is not, since there the operand becomes a factor.
-/

namespace ComplexFormula

namespace Lexeme

variable {limit : Nat} {inner : Option Reader} {cs : List Char} {ts : List (Token Atom)}

/-- What is read in front of a parenthesis is read as well where nothing follows. -/
theorem Embeds.reads (h : Embeds limit inner ((glyphsFrom 0 cs).map (·.item)) ts) :
    Reads limit inner true cs ts := by
  intro start before hbefore
  have hitems : (glyphsFrom start cs).map (·.item) = (glyphsFrom 0 cs).map (·.item) := by
    rw [items_glyphsFrom, items_glyphsFrom]
  have hstops : Stops [] := by simp [Stops]
  obtain ⟨ls, hls, hscans⟩ := h hbefore hitems hstops .nil
  rw [List.append_nil, List.append_nil] at hscans
  exact ⟨ls, hls, hscans⟩

/-- The variable and a call can be negated by a `-` in front. -/
theorem Scans.isNegatable {before : Option Glyph} {gs : List Glyph} {l : Lexeme} {a : Atom}
    (h : Scans limit inner before gs [l]) (hitem : l.item = .operand a)
    (ha : ∀ z, a ≠ .number z) : gs.head?.any Glyph.isNegatable = true := by
  generalize hls : [l] = ls at h
  cases h with
  | nil => cases hls
  | @cons _ g rest r tail hread _ =>
    cases stepRead_of_readOne hread with
    | literal _ _ hliteral =>
      obtain ⟨z, stop, hr⟩ := lexemes_of_readLiteral hliteral
      rw [hr] at hls
      cases hls
      exact absurd (Token.operand.inj hitem).symm (ha z)
    | free hg => simp [Glyph.isNegatable, Glyph.charClass_eq_free_iff.2 hg]
    | imaginaryUnit =>
      cases hls
      exact absurd (Token.operand.inj hitem).symm (ha _)
    | negation => cases hls
    | opening | closing | operator =>
      cases hls
      cases hitem
    | call hclass => simp [Glyph.isNegatable, hclass]

end Lexeme

/-! ### Trees with a sign -/

namespace Tree

/-- The product of `-1` and a tree. -/
def negation (t : Tree Atom) : Tree Atom :=
  .branch .mul (.leaf (.number .minusOne)) t

/-- The tree of an operator and a `-` between two operands, where `-1 *` stands for the `-`. -/
def signed (o : Operator) (left right : Tree Atom) : Tree Atom :=
  if o.bindsBefore .mul then .branch .mul (.branch o left (.leaf (.number .minusOne))) right
  else .branch o left right.negation

variable {K : Type} [Field K] (I : Interpretation K) (left right : Tree Atom)

theorem fold_negation :
    right.negation.fold I.atom I.apply = -right.fold I.atom I.apply := by
  rw [negation, fold, fold, Interpretation.atom, I.number_minusOne, Interpretation.apply,
    neg_one_mul]

/-- In a sum, a difference or a product the operand is negated. -/
theorem fold_signed {o : Operator} (ho : o = .add ∨ o = .sub ∨ o = .mul) :
    (signed o left right).fold I.atom I.apply =
      (Tree.branch o left right.negation).fold I.atom I.apply := by
  rcases ho with rfl | rfl | rfl
  · rfl
  · rfl
  · change left.fold I.atom I.apply * I.number .minusOne * right.fold I.atom I.apply = _
    rw [fold, fold_negation, I.number_minusOne, Interpretation.apply]
    ring

/-- In a quotient the dividend is negated, and the operand is a factor. -/
theorem fold_signed_div : (signed .div left right).fold I.atom I.apply =
    -(left.fold I.atom I.apply * right.fold I.atom I.apply) := by
  change left.fold I.atom I.apply / I.number .minusOne * right.fold I.atom I.apply = _
  rw [I.number_minusOne]
  ring

theorem fold_div_negation : (Tree.branch .div left right.negation).fold I.atom I.apply =
    -(left.fold I.atom I.apply / right.fold I.atom I.apply) := by
  rw [fold, fold_negation, Interpretation.apply, div_neg]

end Tree

namespace Formula

variable {s t text : String} {limit limit' : Nat} {S T : Tree Atom} {ts : List (Token Atom)}

theorem tree_of_le (h : (Formula.mk text limit).tree = .ok T) (hlimit : limit ≤ limit') :
    (Formula.mk text limit').tree = .ok T := by
  have hlimited : Limited limit (Formula.mk text limit).tree (Formula.mk text limit').tree :=
    (terms_limited hlimit).bind fun _ _ => .whole _
  rw [← h]
  exact (hlimited.eq_of_settled (h ▸ .ok T)).symm

/-- The text stands for an operand of its own, which a `-` in front of it negates. -/
structure Factor (limit : Nat) (text : String) (t : Tree Atom) (ts : List (Token Atom)) : Prop where
  reads : Lexeme.Reads limit (Lexeme.innerReader limit limit) true text.toList ts
  negatable : (glyphsFrom 0 text.toList).head?.any Glyph.isNegatable = true
  order : ∀ waiting, Postfix.order? limit waiting [] (Token.multiplyFrom false ts) =
    some (t.postorder ++ waiting.map .operator)

/-- A text in parentheses is an operand. -/
theorem factor_of_group (h : (Formula.mk t limit).tree = .ok T) :
    ∃ ts, Factor (limit + 1) ("(" ++ t ++ ")") T ts := by
  obtain ⟨us, hembeds, horder⟩ := embeds_of_tree h (Nat.le_succ limit)
  have htext : ("(" ++ t ++ ")").toList = '(' :: (t.toList ++ [')']) := by simp
  refine ⟨.opening :: (us ++ [.closing]), ?_, ?_, fun waiting => ?_⟩
  · rw [htext]
    exact Lexeme.Reads.group hembeds Lexeme.reads_nil
  · rw [htext]
    rfl
  · rw [Token.multiplyFrom_group, Postfix.order?_group_nil horder]
    simp [Token.multiplyFrom, Postfix.order?]

/-- The variable or a call is an operand without parentheses as well. -/
theorem factor_of_lexeme {l : Lexeme} {a : Atom} (h : (Formula.mk t limit).lexemes = .ok [l])
    (hitem : l.item = .operand a) (ha : ∀ z, a ≠ .number z) :
    ∃ ts, Factor (limit + 1) t (.leaf a) ts := by
  obtain ⟨scanned, hscans, hmultiply⟩ := lexemes_eq_ok_iff.1 h
  obtain rfl := Lexeme.multiply_eq_singleton hmultiply
  have hembeds : Lexeme.Embeds (limit + 1) (Lexeme.innerReader (limit + 1) (limit + 1))
      ((glyphsFrom 0 t.toList).map (·.item)) ([l].map (·.item)) :=
    hscans.embeds (Lexeme.innerReader_refines (Nat.le_succ limit)) rfl
  refine ⟨[.operand a], ?_, hscans.isNegatable hitem ha, fun waiting => ?_⟩
  · simpa [hitem] using hembeds.reads
  · simp [Token.multiplyFrom, Postfix.order?, Tree.postorder]

theorem Factor.tree_sign (h : Factor limit t T ts) : (Formula.mk ("-" ++ t) limit).tree =
    .ok T.negation := by
  have hreads := h.reads.sign h.negatable
  have htext : ("-" ++ t).toList = '-' :: t.toList := by simp
  rw [← htext] at hreads
  refine tree_of_reads hreads ?_
  have hsign : Token.multiplyFrom false
      (.operand (.number .minusOne) :: .operator .mul :: ts) =
        .operand (.number .minusOne) :: .operator .mul :: Token.multiplyFrom false ts := rfl
  rw [hsign, Postfix.order?, Postfix.order?, List.dropWhile_nil, h.order]
  simp [Tree.negation, Tree.postorder]

/-- The factor `-1` goes to the operator in front if this binds before `*`. -/
theorem Factor.tree_operator_sign (hs : (Formula.mk s limit).tree = .ok S)
    (h : Factor (limit + 1) t T ts) (o : Operator) :
    (Formula.mk ("(" ++ s ++ ")" ++ o.symbol.toString ++ "-" ++ t) (limit + 1)).tree =
      .ok (Tree.signed o S T) := by
  obtain ⟨us, hus, hu⟩ := embeds_of_tree hs (Nat.le_succ limit)
  have htext : ("(" ++ s ++ ")" ++ o.symbol.toString ++ "-" ++ t).toList =
      '(' :: (s.toList ++ ')' :: o.symbol :: '-' :: t.toList) := by
    simp
  have hreads : Lexeme.Reads (limit + 1) (Lexeme.innerReader (limit + 1) (limit + 1)) true
      ("(" ++ s ++ ")" ++ o.symbol.toString ++ "-" ++ t).toList
      (.opening :: (us ++ .closing :: .operator o :: .operand (.number .minusOne) ::
        .operator .mul :: ts)) := by
    rw [htext]
    exact Lexeme.Reads.group hus (.operator o (h.reads.sign h.negatable))
  refine tree_of_reads hreads ?_
  have hsign : Token.multiplyFrom true
      (.operator o :: .operand (.number .minusOne) :: .operator .mul :: ts) =
        .operator o :: .operand (.number .minusOne) :: .operator .mul ::
          Token.multiplyFrom false ts := rfl
  rw [Token.multiplyFrom_group, Postfix.order?_group_nil hu, hsign, Postfix.order?,
    List.dropWhile_nil, Postfix.order?, Postfix.order?, h.order]
  cases hbinds : o.bindsBefore .mul <;>
    simp [Tree.signed, Tree.negation, hbinds, Tree.postorder]

/-- A text that a `-` in front of it negates, and what it is read as. -/
inductive StandsAlone (limit : Nat) : String → Expression → Prop
  /-- Any text in parentheses. -/
  | group {t : String} {e : Expression} (h : (Formula.mk t limit).build = .ok e) :
      StandsAlone limit ("(" ++ t ++ ")") e
  /-- The variable or a call. -/
  | operand {t : String} {e : Expression} {l : Lexeme} {a : Atom}
      (h : (Formula.mk t limit).build = .ok e) (hl : (Formula.mk t limit).lexemes = .ok [l])
      (hitem : l.item = .operand a) (ha : ∀ z, a ≠ .number z) : StandsAlone limit t e

theorem StandsAlone.exists_factor {e : Expression} (h : StandsAlone limit t e) :
    ∃ T ts, e = .ofTree T ∧ Factor (limit + 1) t T ts := by
  cases h with
  | group h =>
    rw [build_eq] at h
    obtain ⟨T, hT, rfl⟩ := Except.map_eq_ok_iff.1 h
    obtain ⟨ts, hts⟩ := factor_of_group hT
    exact ⟨T, ts, rfl, hts⟩
  | @operand _ _ l a h hl hitem ha =>
    rw [build_eq] at h
    obtain ⟨T, hT, rfl⟩ := Except.map_eq_ok_iff.1 h
    obtain ⟨ts, hts⟩ := factor_of_lexeme hl hitem ha
    have hleaf : (Formula.mk t limit).tree = .ok (.leaf a) :=
      tree_eq_ok_iff.2 ⟨[l], hl, by simp [hitem, Postfix.order?, Tree.postorder]⟩
    obtain rfl : T = .leaf a := Except.ok.inj (hT.symm.trans hleaf)
    exact ⟨.leaf a, ts, rfl, hts⟩

/-- Behind `+`, `-` and `*`, a `-` negates the operand that it stands before, just as it does in
parentheses. Behind `/` it makes the operand a factor, which is the same only where the dividend is
0 or the square of the operand is 1. -/
theorem value_of_sign {u : String} {left right : Expression}
    (hs : (Formula.mk s limit).build = .ok left) (hu : StandsAlone limit u right) (o : Operator) :
    ∃ P Q,
      (Formula.mk ("(" ++ s ++ ")" ++ o.symbol.toString ++ "-" ++ u) (limit + 2)).build = .ok P ∧
      (Formula.mk ("(" ++ s ++ ")" ++ o.symbol.toString ++ "(-" ++ u ++ ")") (limit + 2)).build =
        .ok Q ∧
      ∀ {K : Type} [Field K] (I : Interpretation K),
        (o = .add ∨ o = .sub ∨ o = .mul → I.value P = I.value Q) ∧
        (o = .div → I.value P = -(I.value left * I.value right) ∧
          I.value Q = -(I.value left / I.value right) ∧
          (I.value right ≠ 0 → (I.value P = I.value Q ↔
            I.value left = 0 ∨ I.value right * I.value right = 1))) := by
  rw [build_eq] at hs
  obtain ⟨S, hS, rfl⟩ := Except.map_eq_ok_iff.1 hs
  obtain ⟨T, ts, rfl, hT⟩ := hu.exists_factor
  have hP := tree_of_le (hT.tree_operator_sign hS o) (Nat.le_succ _)
  have hQ := tree_operator (tree_of_le hS (Nat.le_succ limit)) hT.tree_sign o
  have htext : "(" ++ s ++ ")" ++ o.symbol.toString ++ "(" ++ ("-" ++ u) ++ ")" =
      "(" ++ s ++ ")" ++ o.symbol.toString ++ "(-" ++ u ++ ")" := by
    rw [← String.toList_inj]
    simp
  rw [htext] at hQ
  refine ⟨_, _, build_of_tree hP, build_of_tree hQ, ?_⟩
  intro K _ I
  simp only [Interpretation.value_ofTree]
  refine ⟨Tree.fold_signed I S T, ?_⟩
  rintro rfl
  rw [Tree.fold_signed_div, Tree.fold_div_negation]
  refine ⟨rfl, rfl, fun hright => ?_⟩
  rw [neg_inj, eq_div_iff hright, mul_assoc, mul_right_eq_self₀, or_comm]

/-- Behind `*` a call is negated without parentheses. -/
theorem value_of_sign_sine : ∃ P Q, (Formula.mk "(x)*-sin(x)" 3).build = .ok P ∧
    (Formula.mk "(x)*(-sin(x))" 3).build = .ok Q ∧
      ∀ {K : Type} [Field K] (I : Interpretation K), I.value P = I.value Q := by
  have hfree : (Formula.mk "x" 1).tree = .ok (.leaf .free) := by decide +kernel
  have hsine : (Formula.mk "sin(x)" 1).tree = .ok (.leaf (.unary .sin .free)) := by decide +kernel
  have hlexemes : (Formula.mk "sin(x)" 1).lexemes = .ok [⟨.operand (.unary .sin .free), 0, 6⟩] := by
    decide +kernel
  obtain ⟨P, Q, hP, hQ, hvalue⟩ := value_of_sign (build_of_tree hfree)
    (.operand (build_of_tree hsine) hlexemes rfl nofun) .mul
  have htextP : "(" ++ "x" ++ ")" ++ Operator.mul.symbol.toString ++ "-" ++ "sin(x)" =
      "(x)*-sin(x)" := by decide +kernel
  have htextQ : "(" ++ "x" ++ ")" ++ Operator.mul.symbol.toString ++ "(-" ++ "sin(x)" ++ ")" =
      "(x)*(-sin(x))" := by decide +kernel
  rw [htextP] at hP
  rw [htextQ] at hQ
  exact ⟨P, Q, hP, hQ, fun I => (hvalue I).1 (.inr (.inr rfl))⟩

/-- The quotient of `x` and a negated `x` should be -1 whatever `x` is, and without parentheses it
is -4 where `x` is 2. -/
theorem value_ne_of_sign_quotient : ∃ P Q, (Formula.mk "(x)/-(x)" 2).build = .ok P ∧
    (Formula.mk "(x)/(-(x))" 2).build = .ok Q ∧ ∀ unary binary pow,
      (Interpretation.exact unary binary pow 2).value P = -4 ∧
        (Interpretation.exact unary binary pow 2).value Q = -1 := by
  have hP : (Formula.mk "(x)/-(x)" 2).tree =
      .ok (Tree.signed .div (.leaf .free) (.leaf .free)) := by
    decide +kernel
  have hQ : (Formula.mk "(x)/(-(x))" 2).tree =
      .ok (.branch .div (.leaf .free) (Tree.leaf .free).negation) := by
    decide +kernel
  refine ⟨_, _, build_of_tree hP, build_of_tree hQ, fun unary binary pow => ?_⟩
  rw [Interpretation.value_ofTree, Interpretation.value_ofTree, Tree.fold_signed_div,
    Tree.fold_div_negation]
  have hfree : (Tree.leaf Atom.free).fold (Interpretation.exact unary binary pow 2).atom
      (Interpretation.exact unary binary pow 2).apply = 2 := rfl
  rw [hfree]
  norm_num

end Formula

end ComplexFormula
