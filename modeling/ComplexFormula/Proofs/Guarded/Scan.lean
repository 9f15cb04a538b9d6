import ComplexFormula.Proofs.Guarded.Call
import ComplexFormula.Proofs.Steps

/-!
The lexemes of a run of glyphs, read by the cursor. Each step moves the cursor on, so the end is
reached, and what a step reads is what it reads from the glyphs that are left.
-/

namespace ComplexFormula

/-- A letter or a `(` can be negated, and nothing else but a number. -/
theorem Glyph.isNegatable_iff {g : Glyph} (h : g.isNumeral = false) :
    g.isNegatable = true ↔ g.isLetter = true ∨ g.item = '(' := by
  rw [isNegatable, charClass, h]
  by_cases hletter : g.isLetter = true
  · by_cases hx : g.item = 'x'
    · simp [hx, hletter]
    · by_cases hi : g.item = 'i' <;> simp [hx, hi, hletter]
  · have hx : g.item ≠ 'x' := fun hx => hletter (by rw [isLetter, hx]; rfl)
    have hi : g.item ≠ 'i' := fun hi => hletter (by rw [isLetter, hi]; rfl)
    by_cases hopening : g.item = '('
    · simp [hopening, hletter]
    · by_cases hclosing : g.item = ')'
      · simp [hclosing, hletter]
      · cases Operator.ofSymbol? g.item <;> simp [hx, hi, hopening, hclosing, hletter]

namespace Cursor

/-- Reads from a `-` at the cursor where an operand is awaited. -/
def lexSign (chars : List Glyph) (cursor : Nat) (minus : Glyph) :
    Guarded (List OpenLexeme × Nat) :=
  let cursor := cursor + 1
  let subtraction := .ok ([minus.map fun _ => .operator .sub], cursor)
  match chars[cursor]? with
  | none => subtraction
  | some next =>
    if next.isNumeral then lexNumber chars cursor minus.start true
    else if next.isLetter ∨ next.item = '(' then
      .ok ([minus.map fun _ => .operand (.number .minusOne), minus.map fun _ => .operator .mul],
        cursor)
    else subtraction

/-- Reads from the glyph `g`, which stands at the cursor. -/
def lexOne (limit : Nat) (inner : Option OpenReader) (chars : List Glyph) (cursor : Nat)
    (g : Glyph) : Guarded (List OpenLexeme × Nat) :=
  let single (token : Token OpenOperand) := .ok ([g.map fun _ => token], cursor + 1)
  match g.charClass with
  | .numeral => lexNumber chars cursor g.start false
  | .free => single (.operand .free)
  | .imaginaryUnit => single (.operand (.number .imaginaryUnit))
  | .letter => lexCall limit inner chars cursor
  | .opening => single .opening
  | .closing => single .closing
  | .operator o =>
    if o = .sub ∧ Lexeme.awaitsOperand (previous? chars cursor) then lexSign chars cursor g
    else single (.operator o)
  | .foreign => Guarded.refuse (.unexpectedCharacter g.item) g.start

/-- Reads step by step to the end. -/
def lexAll (limit : Nat) (inner : Option OpenReader) (chars : List Glyph) (cursor : Nat) :
    Guarded (List OpenLexeme) :=
  match chars[cursor]? with
  | none => .ok []
  | some g =>
    match lexOne limit inner chars cursor g with
    | .error e => .error e
    | .ok (lexemes, next) =>
      if cursor < next ∧ next ≤ chars.length then
        (lexemes ++ ·) <$> lexAll limit inner chars next
      else .error (.broken .cursorAtRest)
termination_by chars.length - cursor

/-- Reads glyphs that may hold calls inside each other as many levels deep as are left. -/
def lex (limit : Nat) : Nat → OpenReader :=
  Lexeme.nested fun inner chars => Lexeme.multiply <$> lexAll limit inner chars 0

/-! ### Steps -/

variable {chars used rest : List Glyph} {cursor limit : Nat} {g : Glyph}
  {guarded : Option OpenReader} {inner : Option Reader}

/-- A single glyph is read as a token of its own. -/
theorem tracks_single (h : Stands chars cursor used (g :: rest)) (token : Token Atom) :
    Tracks chars (.ok ([g.map fun _ => token.map Atom.opened], cursor + 1))
      (.ok (.single token g rest)) :=
  .read h.bump List.getLast?_concat rfl

theorem tracks_lexSign (h : Stands chars cursor used (g :: rest)) :
    Tracks chars (lexSign chars cursor g) (Lexeme.readSign g rest) := by
  have hnext := h.bump.getElem?
  simp only [lexSign, hnext]
  cases rest with
  | nil => exact tracks_single h (.operator .sub)
  | cons next after =>
    dsimp only [List.head?_cons]
    cases hnumeral : next.isNumeral with
    | true =>
      rw [if_pos rfl, Lexeme.readSign_of_isNumeral hnumeral]
      exact tracks_lexNumber h.bump hnumeral g.start true
    | false =>
      rw [if_neg Bool.false_ne_true, Lexeme.readSign_of_not_isNumeral (by simpa using hnumeral)]
      by_cases hnegatable : next.isLetter = true ∨ next.item = '('
      · have hsign := (Glyph.isNegatable_iff hnumeral).2 hnegatable
        rw [if_pos hnegatable, if_pos (by simpa using hsign)]
        exact .read h.bump List.getLast?_concat rfl
      · rw [if_neg hnegatable, if_neg (by simpa [Glyph.isNegatable_iff hnumeral] using hnegatable)]
        exact tracks_single h (.operator .sub)

/-- Each step reads what it reads from the glyphs that are left. -/
theorem tracks_lexOne (hinner : Option.Rel Guards guarded inner)
    (h : Stands chars cursor used (g :: rest)) :
    Tracks chars (lexOne limit guarded chars cursor g)
      (Lexeme.readOne limit inner used.getLast? g rest) := by
  rw [lexOne, Lexeme.readOne]
  cases hclass : g.charClass with
  | numeral => exact tracks_lexNumber h (Glyph.charClass_eq_numeral_iff.1 hclass) g.start false
  | free => exact tracks_single h (.operand .free)
  | imaginaryUnit => exact tracks_single h (.operand (.number .imaginaryUnit))
  | letter => exact tracks_lexCall hinner h (Glyph.isLetter_of_charClass hclass)
  | opening => exact tracks_single h .opening
  | closing => exact tracks_single h .closing
  | operator o =>
    dsimp only
    rw [h.previous?]
    split
    · exact tracks_lexSign h
    · exact tracks_single h (.operator o)
  | foreign => exact .refused _

/-! ### All steps -/

/-- Every step moves the cursor on, so the glyphs are read to the end. -/
theorem lexAll_eq (hinner : Option.Rel Guards guarded inner) (h : Stands chars cursor used rest) :
    lexAll limit guarded chars cursor =
      Guarded.lift (List.map Lexeme.opened <$> Lexeme.scan limit inner used.getLast? rest) := by
  induction hn : rest.length using Nat.strong_induction_on generalizing cursor used rest with
  | _ n ih =>
    have hnext := h.getElem?
    rw [lexAll]
    cases rest with
    | nil =>
      rw [hnext, Lexeme.scan_nil]
      rfl
    | cons g rest =>
      simp only [hnext, List.head?_cons, Lexeme.scan_cons]
      have hstep : Tracks chars (lexOne limit guarded chars cursor g) _ := tracks_lexOne hinner h
      generalize lexOne limit guarded chars cursor g = u at hstep ⊢
      generalize hread : Lexeme.readOne limit inner used.getLast? g rest = v at hstep ⊢
      cases hstep with
      | refused e => rfl
      | @read lexemes opened last used' rest' next hstands hlast hopened =>
        have hused : rest'.length ≤ rest.length := Lexeme.length_of_readOne hread
        have hbefore : chars.length = cursor + (rest.length + 1) := by
          simp [h.chars_eq, h.cursor_eq]
        have hbehind : chars.length = next + rest'.length := by
          simp [hstands.chars_eq, hstands.cursor_eq]
        dsimp only
        rw [if_pos (by omega), ih _ (by simp at hn; omega) hstands rfl, hlast, ← hopened]
        rw [Except.ok_bind]
        cases Lexeme.scan limit inner (some last) rest' with
        | error e => rfl
        | ok ls => simp

/-- Reading by the cursor is never broken, and reads what reading reads. -/
theorem guards_lex (limit levels : Nat) : Guards (lex limit levels) (Lexeme.read limit levels) := by
  have hscan {guarded : Option OpenReader} {inner : Option Reader}
      (hinner : Option.Rel Guards guarded inner) (gs : List Glyph) :
      Lexeme.multiply <$> lexAll limit guarded gs 0 = Guarded.lift (List.map Lexeme.opened <$>
        (Lexeme.multiply <$> Lexeme.scan limit inner none gs)) := by
    rw [lexAll_eq hinner (.start gs), List.getLast?_nil]
    cases Lexeme.scan limit inner _ gs with
    | error e => rfl
    | ok ls => exact congrArg Except.ok (Lexeme.multiply_map Atom.isNumber_opened ls)
  induction levels with
  | zero => exact hscan .none
  | succ levels ih => exact hscan (.some ih)

end Cursor

end ComplexFormula
