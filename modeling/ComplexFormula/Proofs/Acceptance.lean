import ComplexFormula.Proofs.Alternation
import ComplexFormula.Proofs.Numbering
import ComplexFormula.Proofs.Ordering
import ComplexFormula.Proofs.Scanning
import Mathlib.Algebra.Ring.Nat
import Mathlib.Data.List.Chain

/-!
Which formulas are read. That a formula is read says two things about its tokens: their parentheses
close, and there is one operand more than there are operators. Since a `*` is read wherever a
variable, a call or a parenthesis follows an operand at once, only a number can stand directly
behind an operand; where none does, the two facts make the tokens a sentence. Where one does, as in
`x2+`, tokens that are no sentence can be read all the same.
-/

namespace ComplexFormula

variable {α : Type}

@[simp] theorem Term.toToken_operand (a : α) : (operand a).toToken = .operand a := rfl

@[simp] theorem Term.toToken_operator (o : Operator) :
    (operator o : Term α).toToken = .operator o := rfl

/-! ### What the converter keeps -/

namespace Token

theorem surplus_append (us vs : List (Token α)) : surplus (us ++ vs) = surplus us + surplus vs := by
  induction us with
  | nil => simp [surplus]
  | cons t us ih => cases t <;> simp only [List.cons_append, surplus, ih] <;> omega

end Token

/-- A tree has one operand more than operators. -/
theorem Tree.surplus_postorder (t : Tree α) :
    Token.surplus (t.postorder.map Term.toToken) = 1 := by
  induction t with
  | leaf a => rfl
  | branch o l r hl hr =>
    simp only [postorder, List.map_append, Token.surplus_append, hl, hr]
    rfl

namespace Postfix

theorem surplus_operators (operators : List Operator) :
    Token.surplus ((operators.map .operator : List (Term α)).map Term.toToken) =
      -operators.length := by
  induction operators with
  | nil => rfl
  | cons o operators ih =>
    simp only [List.map_cons, Term.toToken_operator, Token.surplus, List.length_cons, ih]
    omega

variable {limit : Nat} {waiting : List Operator} {frames : List (List Operator)}
  {ts : List (Token α)} {terms : List (Term α)}

/-- The terms are the operands and operators of the tokens and the operators that waited. -/
theorem surplus_of_order? (h : order? limit waiting frames ts = some terms) :
    Token.surplus (terms.map Term.toToken) =
      Token.surplus ts - (waiting.length + (frames.map List.length).sum : Nat) := by
  fun_induction order? limit waiting frames ts generalizing terms with
  | case1 waiting =>
    cases h
    rw [surplus_operators]
    simp [Token.surplus]
  | case2 => cases h
  | case3 waiting frames a rest ih =>
    obtain ⟨terms, hterms, rfl⟩ := Option.map_eq_some_iff.1 h
    simp only [List.map_cons, Term.toToken_operand, Token.surplus, ih hterms]
    omega
  | case4 waiting frames o rest ih =>
    obtain ⟨terms, hterms, rfl⟩ := Option.map_eq_some_iff.1 h
    have hlength : (waiting.takeWhile (·.bindsBefore o)).length +
        (waiting.dropWhile (·.bindsBefore o)).length = waiting.length := by
      rw [← List.length_append, List.takeWhile_append_dropWhile]
    rw [List.map_append, Token.surplus_append, surplus_operators, ih hterms]
    simp only [Token.surplus, List.length_cons]
    omega
  | case5 => cases h
  | case6 waiting frames rest _ ih =>
    rw [ih h]
    simp only [Token.surplus, List.map_cons, List.length_nil, List.sum_cons]
    omega
  | case7 => cases h
  | case8 waiting rest outer frames ih =>
    obtain ⟨terms, hterms, rfl⟩ := Option.map_eq_some_iff.1 h
    rw [List.map_append, Token.surplus_append, surplus_operators, ih hterms]
    simp only [Token.surplus, List.map_cons, List.sum_cons]
    omega

/-- The tokens close the parentheses that are open, and their own. -/
theorem closes_of_order? (h : order? limit waiting frames ts = some terms) :
    Token.Closes frames.length ts := by
  fun_induction order? limit waiting frames ts generalizing terms with
  | case1 => rfl
  | case2 => cases h
  | case3 waiting frames a rest ih =>
    obtain ⟨terms, hterms, rfl⟩ := Option.map_eq_some_iff.1 h
    simpa using ih hterms
  | case4 waiting frames o rest ih =>
    obtain ⟨terms, hterms, rfl⟩ := Option.map_eq_some_iff.1 h
    simpa using ih hterms
  | case5 => cases h
  | case6 waiting frames rest _ ih => exact ih h
  | case7 => cases h
  | case8 waiting rest outer frames ih =>
    obtain ⟨terms, hterms, rfl⟩ := Option.map_eq_some_iff.1 h
    exact ih hterms

end Postfix

/-! ### Where a `*` is read -/

namespace Lexeme

/-- Once each `*` is written out, no neighbours are left that would be multiplied. -/
theorem isChain_multiply (ls : List Lexeme) :
    (multiply ls).IsChain fun left right => juxtaposed left right = false := by
  fun_induction multiply ls with
  | case1 => exact .nil
  | case2 last => exact .singleton last
  | case3 left right rest _ ih =>
    have hhead : ∀ l ∈ (multiply (right :: rest)).head?, juxtaposed (times right) l = false := by
      intro l _
      rfl
    refine List.isChain_cons_cons.2 ⟨?_, List.isChain_cons.2 ⟨hhead, ih⟩⟩
    exact Bool.and_false _
  | case4 left right rest hjuxtaposed ih =>
    refine List.isChain_cons.2 ⟨?_, ih⟩
    rw [head?_multiply]
    rintro _ ⟨⟩
    exact Bool.not_eq_true _ ▸ hjuxtaposed

end Lexeme

namespace Token

/-- Somewhere a number stands directly behind the end of an operand. -/
def NumberBehindOperand (ts : List (Token Atom)) : Prop :=
  ∃ before left z after, ts = before ++ left :: .operand (.number z) :: after ∧
    left.endsOperand = true

/-- What begins an operand is a number, or it can be a factor without a sign in front. -/
theorem number_or_beginsFactor {t : Token Atom} (h : t.beginsOperand = true) :
    (∃ z, t = .operand (.number z)) ∨ Lexeme.beginsFactor t = true := by
  cases t with
  | operand a =>
    cases a with
    | number z => exact .inl ⟨z, rfl⟩
    | _ => exact .inr rfl
  | opening => exact .inr rfl
  | operator | closing => cases h

/-- In a run of tokens that alternates, an operand begins behind a token exactly if none ends with
it. -/
theorem Alternates.beginsOperand_eq {awaited : Bool} {before after : List (Token α)}
    {left right : Token α} (h : Alternates awaited (before ++ left :: right :: after)) :
    right.beginsOperand = !left.endsOperand := by
  induction before generalizing awaited with
  | nil => exact h.2.1
  | cons t before ih => exact ih h.2

/-- Only numbers can stand behind an operand where each `*` is written out. -/
theorem parted_of_isChain {ls : List Lexeme} {awaited : Bool}
    (hchain : ls.IsChain fun left right => Lexeme.juxtaposed left right = false)
    (hnumber : ¬ NumberBehindOperand (ls.map (·.item)))
    (hhead : ∀ l ∈ ls.head?, l.item.beginsOperand = true → awaited = true) :
    Parted awaited (ls.map (·.item)) := by
  induction ls generalizing awaited with
  | nil => trivial
  | cons left rest ih =>
    obtain ⟨hneighbour, hchain⟩ := List.isChain_cons.1 hchain
    refine ⟨hhead left rfl, ih hchain ?_ ?_⟩
    · rintro ⟨before, l, z, after, hsplit, hends⟩
      exact hnumber ⟨left.item :: before, l, z, after, by simp [hsplit], hends⟩
    · intro right hright hbegins
      have hjuxtaposed := hneighbour right hright
      obtain ⟨after, rfl⟩ := List.head?_eq_some_iff.1 hright
      rw [Bool.not_eq_true', ← Bool.not_eq_true]
      intro hends
      rcases number_or_beginsFactor hbegins with ⟨z, hitem⟩ | hfactor
      · exact hnumber ⟨[], left.item, z, after.map (·.item), by simp [hitem], hends⟩
      · -- a variable, a call and a `(` would have been multiplied
        rw [Lexeme.juxtaposed, hends, hfactor] at hjuxtaposed
        cases hjuxtaposed

end Token

namespace Formula

variable {f : Formula} {e : Expression}

/-- The lexemes of a text are multiplied. -/
theorem isChain_lexemes {ls : List Lexeme} (h : f.lexemes = .ok ls) :
    ls.IsChain fun left right => Lexeme.juxtaposed left right = false := by
  obtain ⟨scanned, -, rfl⟩ := lexemes_eq_ok_iff.1 h
  exact Lexeme.isChain_multiply scanned

/-- The tokens of a formula that is read close their parentheses, and among them is one operand more
than there are operators. -/
theorem surplus_of_build {e : Expression} (h : f.build = .ok e) : ∃ ls, f.lexemes = .ok ls ∧
    Token.surplus (ls.map (·.item)) = 1 ∧ Token.Closes 0 (ls.map (·.item)) := by
  rw [build_eq] at h
  obtain ⟨t, ht, -⟩ := Except.map_eq_ok_iff.1 h
  obtain ⟨ls, hls, horder⟩ := tree_eq_ok_iff.1 ht
  refine ⟨ls, hls, ?_, Postfix.closes_of_order? horder⟩
  have hsurplus := Postfix.surplus_of_order? horder
  rw [Tree.surplus_postorder] at hsurplus
  simpa using hsurplus.symm

/-- The tokens of a formula that is read are a sentence exactly if no number stands directly behind
an operand. Then an operand begins behind a token exactly if none ends with it. -/
theorem derives_iff_of_build (h : f.build = .ok e) : ∃ ls, f.lexemes = .ok ls ∧
    ((∃ t, Derives .sum (ls.map (·.item)) t) ↔ ¬ Token.NumberBehindOperand (ls.map (·.item))) ∧
    (¬ Token.NumberBehindOperand (ls.map (·.item)) → ∀ before left right after,
      ls.map (·.item) = before ++ left :: right :: after →
        right.beginsOperand = !left.endsOperand) := by
  obtain ⟨ls, hls, hsurplus, hcloses⟩ := surplus_of_build h
  have halternates (hnumber : ¬ Token.NumberBehindOperand (ls.map (·.item))) :
      Token.Alternates true (ls.map (·.item)) :=
    (Token.surplus_of_parted
      (Token.parted_of_isChain (isChain_lexemes hls) hnumber fun _ _ _ => rfl)).2 hsurplus
  refine ⟨ls, hls, ⟨?_, ?_⟩, ?_⟩
  · intro hderives
    rintro ⟨before, left, z, after, hsplit, hends⟩
    have := (exists_derives_iff.1 hderives).1
    rw [hsplit] at this
    simpa [hends, Token.beginsOperand] using this.beginsOperand_eq
  · intro hnumber
    exact exists_derives_iff.2 ⟨halternates hnumber, hcloses⟩
  · intro hnumber before left right after hsplit
    have := halternates hnumber
    rw [hsplit] at this
    exact this.beginsOperand_eq

theorem derives_iff_of_build_difference :
    ∃ e ls t, (Formula.mk "x-(x)" 1).build = .ok e ∧ (Formula.mk "x-(x)" 1).lexemes = .ok ls ∧
      Derives .sum (ls.map (·.item)) t := by
  have hscans : Lexeme.Scans 1 (some (Lexeme.read 1 0)) none
      [⟨'x', 0, 1⟩, ⟨'-', 1, 2⟩, ⟨'(', 2, 3⟩, ⟨'x', 3, 4⟩, ⟨')', 4, 5⟩] _ :=
    .cons rfl (.cons rfl (.cons rfl (.cons rfl (.cons rfl (.nil _)))))
  have hlexemes : (Formula.mk "x-(x)" 1).lexemes = .ok [⟨.operand .free, 0, 1⟩,
      ⟨.operator .sub, 1, 2⟩, ⟨.opening, 2, 3⟩, ⟨.operand .free, 3, 4⟩, ⟨.closing, 4, 5⟩] :=
    lexemes_eq_ok_iff.2 ⟨_, hscans, rfl⟩
  have htree : (Formula.mk "x-(x)" 1).tree = .ok (.branch .sub (.leaf .free) (.leaf .free)) := by
    rw [tree, terms, hlexemes]
    rfl
  obtain ⟨ls, hls, hderives, -⟩ := derives_iff_of_build (build_of_tree htree)
  obtain rfl := Except.ok.inj (hls.symm.trans hlexemes)
  -- none of the operands is a number
  obtain ⟨t, ht⟩ := hderives.2 <| by
    rintro ⟨before, left, z, after, hsplit, -⟩
    have hmem : Token.operand (.number z) ∈ before ++ left :: .operand (.number z) :: after := by
      simp
    rw [← hsplit] at hmem
    simp at hmem
  exact ⟨_, _, t, build_of_tree htree, hls, ht⟩

/-- Not every formula that is read is a sentence: in `x2+` the operator makes up for the operand too
many, although nothing stands behind it. -/
theorem not_derives_of_build : ¬ ∀ (f : Formula) (e : Expression), f.build = .ok e →
    ∃ ls t, f.lexemes = .ok ls ∧ Derives .sum (ls.map (·.item)) t := by
  intro hall
  have hscans : Lexeme.Scans 0 none none [⟨'x', 0, 1⟩, ⟨'2', 1, 2⟩, ⟨'+', 2, 3⟩] _ :=
    .cons rfl (.cons rfl (.cons rfl (.nil _)))
  have hlexemes : (Formula.mk "x2+" 0).lexemes = .ok _ :=
    lexemes_eq_ok_iff.2 ⟨_, hscans, rfl⟩
  obtain ⟨u, hu⟩ : ∃ u, (Formula.mk "x2+" 0).tree = .ok u := by
    rw [tree, terms, hlexemes]
    exact ⟨_, rfl⟩
  obtain ⟨ls, t, hls, ht⟩ := hall _ _ (build_of_tree hu)
  obtain rfl := Except.ok.inj (hls.symm.trans hlexemes)
  have hlast := (exists_derives_iff.1 ⟨t, ht⟩).1.2.2.2
  cases hlast

end Formula

end ComplexFormula
