import ComplexFormula.Proofs.Spelling
import ComplexFormula.Proofs.Writing

/-!
Reading undoes writing. The tokens of a sentence, written one behind the other, are read back as
just these tokens: what a `-` or an `i` means shows from its neighbours, and the grammar leaves no
choice of what these are. The single exception is a number in front of `*i`, which would take the
`i` for its mark.
-/

namespace ComplexFormula

/-- The characters write a token: an operand, or the one character of any other token. -/
inductive Token.Written : List Char → Token Atom → Prop
  | operand {cs : List Char} {a : Atom} (h : Atom.Written cs a) : Token.Written cs (.operand a)
  | operator (o : Operator) : Token.Written [o.symbol] (.operator o)
  | opening : Token.Written ['('] .opening
  | closing : Token.Written [')'] .closing

/-- Tokens that are written, none of them a number without a mark in front of `*i`. -/
structure WellWritten (written : List (List Char × Token Atom)) : Prop where
  each : ∀ p ∈ written, Token.Written p.1 p.2
  unmarked : ∀ digits a, Atom.IsPlain digits →
    ¬ [(digits, .operand a), (['*'], .operator .mul),
        (['i'], .operand (.number .imaginaryUnit))] <:+: written

theorem WellWritten.tail {p : List Char × Token Atom} {written : List (List Char × Token Atom)}
    (h : WellWritten (p :: written)) : WellWritten written where
  each q hq := h.each q (.tail _ hq)
  unmarked digits a hdigits hpart := h.unmarked digits a hdigits (List.infix_cons hpart)

/-! ### What follows an operand -/

/-- A literal begins with a digit or a point. -/
theorem Decimal.IsLiteral.exists_cons {cs : List Char} (h : IsLiteral cs) :
    ∃ c rest, cs = c :: rest ∧ (c.isDigit = true ∨ c = '.') := by
  cases cs with
  | nil => exact absurd h.exists_digit (by simp)
  | cons c rest => exact ⟨c, rest, rfl, h.numeral c (.head _)⟩

/-- Of the operands only the imaginary unit is written with an `i` in front. -/
theorem Atom.Written.eq_of_head? {cs more : List Char} {a : Atom} (h : Written cs a)
    (hcs : (cs ++ more).head? = some 'i') : cs = ['i'] ∧ a = .number .imaginaryUnit := by
  have number {negative : Bool} {digits behind : List Char} (h : Decimal.IsLiteral digits) :
      (sign negative ++ (digits ++ behind)).head? ≠ some 'i' := by
    obtain ⟨c, rest, rfl, hc⟩ := h.exists_cons
    cases negative with
    | true => simp [sign]
    | false =>
      rintro ⟨⟩
      revert hc
      decide
  have call {f : Builtin} {behind : List Char} : (f.name.toList ++ behind).head? ≠ some 'i' := by
    obtain ⟨⟨c, rest, hname, hclass⟩, -⟩ := f.letters_name
    rw [hname]
    rintro ⟨⟩
    cases hclass
  cases h with
  | free => cases hcs
  | imaginaryUnit => exact ⟨rfl, rfl⟩
  | real negative h => exact absurd (List.append_assoc .. ▸ hcs) (number h)
  | imaginary negative h _ =>
    rw [List.append_assoc, List.append_assoc] at hcs
    exact absurd hcs (number h)
  | unary f h => exact absurd (List.append_assoc .. ▸ hcs) (call (f := .unary f))
  | binary f ha hb => exact absurd (List.append_assoc .. ▸ hcs) (call (f := .binary f))

theorem Operator.eq_mul_of_symbol {o : Operator} (h : o.symbol = '*') : o = .mul := by
  cases o <;> first | rfl | cases h

/-- In a sentence nothing follows a number that it could go on with. -/
theorem Lexeme.ends_of_wellWritten {digits : List Char} {a : Atom}
    {written : List (List Char × Token Atom)} (hdigits : Atom.IsPlain digits)
    (hwritten : WellWritten ((digits, .operand a) :: written))
    (halternates : Token.Alternates false (written.map (·.2))) {gs : List Glyph}
    (hgs : gs.map (·.item) = written.flatMap (·.1)) : Ends gs := by
  cases written with
  | nil =>
    obtain rfl := List.map_eq_nil_iff.1 hgs
    exact ends_nil
  | cons p written =>
    obtain ⟨cs, t⟩ := p
    obtain ⟨us, vs, rfl, hus, hvs⟩ := List.map_eq_append_iff.1 hgs
    obtain ⟨hbegins, hrest⟩ := halternates
    cases hwritten.each (cs, t) (.tail _ (.head _)) with
    | operand => cases hbegins
    | opening => cases hbegins
    | closing =>
      obtain ⟨g, rfl, hg⟩ := List.map_eq_singleton_iff.1 hus
      exact ⟨by simp [Glyph.isNumeral, hg], by simp [imaginaryMark?, hg]⟩
    | operator o =>
      obtain ⟨g, rfl, hg⟩ := List.map_eq_singleton_iff.1 hus
      refine ⟨?_, Option.eq_none_iff_forall_ne_some.2 ?_⟩
      · simp only [List.singleton_append, List.head?_cons, Option.any_some, Glyph.isNumeral, hg]
        cases o <;> decide
      rintro ⟨mark, behind⟩ hmark
      -- the mark would be an `i` of its own behind a `*`
      obtain ⟨hi, hrun | ⟨star, hstar, hrun⟩⟩ := imaginaryMark?_eq_some_iff.1 hmark
      · obtain ⟨rfl, -⟩ := List.cons.inj hrun
        cases o <;> cases hg.symm.trans hi
      obtain ⟨rfl, rfl⟩ := List.cons.inj hrun
      obtain rfl := Operator.eq_mul_of_symbol (hg.symm.trans hstar)
      cases written with
      | nil => cases hvs
      | cons p written =>
        obtain ⟨cs', t'⟩ := p
        have hchars : mark.item :: behind.map (·.item) = cs' ++ written.flatMap (·.1) := hvs
        have hhead : (cs' ++ written.flatMap (·.1)).head? = some 'i' := by
          rw [← hchars, hi, List.head?_cons]
        cases hwritten.each (cs', t') (.tail _ (.tail _ (.head _))) with
        | operand h =>
          obtain ⟨rfl, rfl⟩ := h.eq_of_head? hhead
          exact hwritten.unmarked digits a hdigits ⟨[], written, rfl⟩
        | operator => cases hrest.1
        | opening => cases hhead
        | closing => cases hhead

namespace Lexeme

variable {limit levels : Nat} {inner : Option Reader} {before : Option Glyph} {gs : List Glyph}

theorem readOne_of_operator {g : Glyph} {rest : List Glyph} {o : Operator}
    (hg : g.item = o.symbol) (hbefore : awaitsOperand before = false) :
    readOne limit inner before g rest = .ok (.single (.operator o) g rest) := by
  have hclass : g.charClass = .operator o := by
    rw [Glyph.charClass_congr (g := ⟨o.symbol, 0, 0⟩) hg]
    cases o <;> rfl
  simp [readOne, hclass, hbefore]

/-- Tokens that alternate are read one after the other as they are written. -/
theorem exists_scans_of_wellWritten {written : List (List Char × Token Atom)} {awaited : Bool}
    (hwritten : WellWritten written) (hdepth : Token.callDepth (written.map (·.2)) ≤ levels)
    (halternates : Token.Alternates awaited (written.map (·.2)))
    (hbefore : awaitsOperand before = awaited) (hgs : gs.map (·.item) = written.flatMap (·.1)) :
    ∃ ls, ls.map (·.item) = written.map (·.2) ∧
      Scans limit (innerReader limit levels) before gs ls := by
  induction written generalizing awaited before gs with
  | nil =>
    obtain rfl := List.map_eq_nil_iff.1 hgs
    exact ⟨[], rfl, .nil before⟩
  | cons p written ih =>
    obtain ⟨cs, t⟩ := p
    obtain ⟨us, vs, rfl, hus, hvs⟩ := List.map_eq_append_iff.1 hgs
    obtain ⟨hbegins, hrest⟩ := halternates
    rw [Token.callDepth_le_iff] at hdepth
    have htail : ∀ g : Glyph, g.endsOperand = t.endsOperand → ∃ ls,
        ls.map (·.item) = written.map (·.2) ∧
          Scans limit (innerReader limit levels) (some g) vs ls := by
      intro g hg
      have hawaits : awaitsOperand (some g) = !t.endsOperand := by rw [awaitsOperand, hg]
      exact ih hwritten.tail (Token.callDepth_le_iff.2 fun a ha => hdepth a (.tail _ ha)) hrest
        hawaits hvs
    refine ReadsToken.scans ?_ htail
    have hp := hwritten.each _ (.head _)
    cases hp with
    | @operand _ a h =>
      refine h.readsToken (hdepth a (.head _)) (hbefore.trans hbegins.symm) hus fun hdigits => ?_
      exact ends_of_wellWritten hdigits hwritten hrest hvs
    | operator o =>
      obtain ⟨g, rfl, hg⟩ := List.map_eq_singleton_iff.1 hus
      refine readsToken_of_single (readOne_of_operator hg (hbefore.trans hbegins.symm)) ?_
      rw [Glyph.endsOperand, hg]
      cases o <;> rfl
    | opening =>
      obtain ⟨g, rfl, hg⟩ := List.map_eq_singleton_iff.1 hus
      refine readsToken_of_single (readOne_of_item hg rfl) ?_
      simp [Glyph.endsOperand, hg, Token.endsOperand]
    | closing =>
      obtain ⟨g, rfl, hg⟩ := List.map_eq_singleton_iff.1 hus
      refine readsToken_of_single (readOne_of_item hg rfl) ?_
      simp [Glyph.endsOperand, hg, Token.endsOperand]

end Lexeme

/-- Between tokens that alternate no `*` is left out. -/
theorem Token.multiplyFrom_of_alternates {awaited : Bool} {ts : List (Token Atom)}
    (h : Alternates awaited ts) : multiplyFrom (!awaited) ts = ts := by
  induction ts generalizing awaited with
  | nil => rfl
  | cons t rest ih =>
    obtain ⟨hbegins, hrest⟩ := h
    have hrest := ih hrest
    rw [Bool.not_not] at hrest
    have hwritten : ¬ (!awaited && Lexeme.beginsFactor t) = true := by
      subst hbegins
      cases t <;> simp [beginsOperand, Lexeme.beginsFactor]
    rw [multiplyFrom, hrest, if_neg hwritten]

/-- The tokens of a sentence are read back from any text in which they are written one behind the
other, with blanks anywhere and in letters of any case, if no call among them nests too deep. -/
theorem Formula.lexemes_of_wellWritten (f : Formula) {written : List (List Char × Token Atom)}
    {t : Tree Atom} (hderives : Derives .sum (written.map (·.2)) t) (hwritten : WellWritten written)
    (hdepth : Token.callDepth (written.map (·.2)) ≤ f.depthLimit)
    (htext : Text.spelling f.text = written.flatMap (·.1)) :
    ∃ ls, f.lexemes = .ok ls ∧ ls.map (·.item) = written.map (·.2) := by
  have halternates := (exists_derives_iff.1 ⟨t, hderives⟩).1
  have hitems : (glyphs f.text).map (·.item) = written.flatMap (·.1) :=
    (items_glyphsFrom 0 _).trans htext
  have hbefore : Lexeme.awaitsOperand none = true := rfl
  obtain ⟨ls, hls, hscans⟩ :=
    Lexeme.exists_scans_of_wellWritten hwritten hdepth halternates hbefore hitems
  refine ⟨Lexeme.multiply ls, lexemes_eq_ok_iff.2 ⟨ls, hscans, rfl⟩, ?_⟩
  rw [Lexeme.items_multiply, hls]
  exact Token.multiplyFrom_of_alternates halternates

/-- The second `-` of the text is the sign of a number, and the capital letter and the blanks are no
matter. -/
theorem Formula.lexemes_of_wellWritten_power : ∃ ls two three,
    Decimal.read? ['2'] = some two ∧ Decimal.read? ['3'] = some three ∧
    (Formula.mk "x - -2 ^ Sin( 3i )" 1).lexemes = .ok ls ∧
    ls.map (·.item) = [.operand .free, .operator .sub, .operand (.number ⟨-two, 0⟩), .operator .pow,
      .operand (.unary .sin (.number ⟨0, three⟩))] := by
  have htwo : Decimal.IsLiteral ['2'] := ⟨by simp, by simp, by simp⟩
  have hthree : Decimal.IsLiteral ['3'] := ⟨by simp, by simp, by simp⟩
  let written : List (List Char × Token Atom) :=
    [(['x'], .operand .free), (['-'], .operator .sub),
      (['-', '2'], .operand (.number ⟨-htwo.value, 0⟩)), (['^'], .operator .pow),
      (Builtin.Unary.sin.name.toList ++ '(' :: (['3', 'i'] ++ [')']),
        .operand (.unary .sin (.number ⟨0, hthree.value⟩)))]
  have hfree : Derives .sum [.operand Atom.free] (.leaf .free) :=
    Derives.sum_of_primary (.operand _)
  have hpower {a b : Atom} : Derives .product [.operand a, .operator .pow, .operand b] _ :=
    .power (.pow (.operand a) (.primary (.operand b)))
  have hderives : Derives .sum (written.map (·.2)) _ := .add (.inr rfl) hfree hpower
  have hwritten : WellWritten written := by
    refine ⟨?_, fun digits a _ hpart => ?_⟩
    · simp only [written, List.forall_mem_cons]
      exact ⟨.operand .free, .operator .sub, .operand (.real true htwo), .operator .pow,
        .operand (.unary .sin (.imaginary false hthree (.inl rfl))), List.forall_mem_nil _⟩
    · have hmem := hpart.subset (.tail _ (.head _))
      simp [written] at hmem
  have htext : Text.spelling "x - -2 ^ Sin( 3i )" = "x--2^sin(3i)".toList := by decide +kernel
  obtain ⟨ls, hls, hitems⟩ := lexemes_of_wellWritten (Formula.mk "x - -2 ^ Sin( 3i )" 1) hderives
    hwritten (Nat.le_refl 1) htext
  exact ⟨ls, _, _, htwo.read?_eq, hthree.read?_eq, hls, hitems⟩

end ComplexFormula
