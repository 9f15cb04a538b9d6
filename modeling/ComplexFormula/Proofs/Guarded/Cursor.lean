import ComplexFormula.Lexeme.Literal
import ComplexFormula.Proofs.Guarded.Operand

/-!
Reading by a cursor, a place in a fixed run of glyphs. Behind the cursor are the glyphs that are
used up and before it those that are left, so what is found by places is what is found by taking the
glyphs apart.
-/

namespace ComplexFormula

/-- A lexeme whose calls hold their arguments in lists. -/
abbrev OpenLexeme := Spanned (Token OpenOperand)

/-- The lexeme with its arguments in lists. -/
def Lexeme.opened (l : Lexeme) : OpenLexeme :=
  Spanned.map (Token.map Atom.opened) l

namespace Cursor

/-- The last glyph that is used up. -/
def previous? (chars : List Glyph) : Nat → Option Glyph
  | 0 => none
  | place + 1 => chars[place]?

/-- The byte behind the last glyph that is used up. -/
def consumedEnd (chars : List Glyph) (cursor : Nat) : Guarded Nat := do
  let g ← Guarded.require .cursorAtStart (previous? chars cursor)
  pure g.stop

/-- The glyphs from the cursor on as long as they pass a test, and the cursor behind them. -/
def run (p : Glyph → Bool) (chars : List Glyph) (cursor : Nat) : List Glyph × Nat :=
  match _h : chars[cursor]? with
  | none => ([], cursor)
  | some g =>
    if p g then
      let (gs, stop) := run p chars (cursor + 1)
      (g :: gs, stop)
    else ([], cursor)
termination_by chars.length - cursor
decreasing_by
  have := (List.getElem?_eq_some_iff.1 _h).1
  omega

/-- The character a number of places from the cursor. -/
def charAt? (chars : List Glyph) (place : Nat) : Option Char :=
  chars[place]?.map (·.item)

/-- The cursor behind the mark of an imaginary number, if there is one at the cursor. -/
def behindMark? (chars : List Glyph) (cursor : Nat) : Option Nat :=
  if charAt? chars cursor = some 'i' then some (cursor + 1)
  else if charAt? chars cursor = some '*' ∧ charAt? chars (cursor + 1) = some 'i' then
    some (cursor + 1 + 1)
  else none

/-- Reads the number at the cursor. Its lexeme begins at `start`, which is where its sign stands if
it is negative. -/
def lexNumber (chars : List Glyph) (cursor start : Nat) (negative : Bool) :
    Guarded (List OpenLexeme × Nat) :=
  let (digits, cursor) := run Glyph.isNumeral chars cursor
  let literal := digits.map (·.item)
  match Decimal.read? literal with
  | none => Guarded.refuse (.malformedLiteral (String.ofList literal)) start
  | some magnitude =>
    let value := if negative then -magnitude else magnitude
    match behindMark? chars cursor with
    | some cursor => do
      let stop ← consumedEnd chars cursor
      pure ([⟨.operand (.number ⟨0, value⟩), start, stop⟩], cursor)
    | none => do
      let stop ← consumedEnd chars cursor
      pure ([⟨.operand (.number ⟨value, 0⟩), start, stop⟩], cursor)

/-! ### What stands behind the cursor and before it -/

/-- The cursor stands behind the glyphs `used` and before the glyphs `rest`. -/
structure Stands (chars : List Glyph) (cursor : Nat) (used rest : List Glyph) : Prop where
  chars_eq : chars = used ++ rest
  cursor_eq : cursor = used.length

namespace Stands

variable {chars used rest : List Glyph} {cursor : Nat} {g last : Glyph}

/-- At the start nothing is used up. -/
theorem start (chars : List Glyph) : Stands chars 0 [] chars :=
  ⟨rfl, rfl⟩

theorem getElem? (h : Stands chars cursor used rest) : chars[cursor]? = rest.head? := by
  rw [h.chars_eq, h.cursor_eq, List.getElem?_append_right (Nat.le_refl _), Nat.sub_self,
    List.head?_eq_getElem?]

/-- The cursor moves behind the next glyph. -/
theorem bump (h : Stands chars cursor used (g :: rest)) :
    Stands chars (cursor + 1) (used ++ [g]) rest where
  chars_eq := by simp [h.chars_eq]
  cursor_eq := by simp [h.cursor_eq]

theorem previous? (h : Stands chars cursor used rest) :
    Cursor.previous? chars cursor = used.getLast? := by
  rw [h.chars_eq, h.cursor_eq]
  rcases List.eq_nil_or_concat used with rfl | ⟨before, last, rfl⟩
  · rfl
  · simp [Cursor.previous?]

theorem consumedEnd (h : Stands chars cursor used rest) (hlast : used.getLast? = some last) :
    Cursor.consumedEnd chars cursor = .ok last.stop := by
  rw [Cursor.consumedEnd, h.previous?, hlast]
  rfl

theorem run_eq (h : Stands chars cursor used rest) (p : Glyph → Bool) :
    (run p chars cursor).1 = rest.takeWhile p ∧
      Stands chars (run p chars cursor).2 (used ++ rest.takeWhile p) (rest.dropWhile p) := by
  induction rest generalizing cursor used with
  | nil =>
    have hnone : chars[cursor]? = none := h.getElem?
    rw [run]
    split
    · simpa using h
    · simp_all
  | cons g rest ih =>
    have hsome : chars[cursor]? = some g := h.getElem?
    rw [run]
    split
    · simp_all
    · next g' hg' =>
      obtain rfl : g' = g := by simpa [hg'] using hsome
      cases hp : p g' with
      | false => simpa [hp] using h
      | true =>
        obtain ⟨hgs, hstands⟩ := ih h.bump
        rw [if_pos rfl, List.takeWhile_cons_of_pos hp, List.dropWhile_cons_of_pos hp]
        exact ⟨congrArg _ hgs, by simpa using hstands⟩

theorem charAt? (h : Stands chars cursor used rest) :
    Cursor.charAt? chars cursor = rest.head?.map (·.item) := by
  rw [Cursor.charAt?, h.getElem?]

theorem behindMark?_eq_none (h : Stands chars cursor used rest)
    (hmark : Lexeme.imaginaryMark? rest = none) : behindMark? chars cursor = none := by
  rw [behindMark?, h.charAt?]
  rcases rest with _ | ⟨g, rest⟩
  · rfl
  · rw [h.bump.charAt?]
    rcases rest with _ | ⟨unit, rest⟩
    · simp_all [Lexeme.imaginaryMark?]
    · rw [Lexeme.imaginaryMark?.eq_def] at hmark
      grind

theorem behindMark?_eq_some {mark : Glyph} {after : List Glyph}
    (h : Stands chars cursor used rest) (hmark : Lexeme.imaginaryMark? rest = some (mark, after)) :
    ∃ stop used', behindMark? chars cursor = some stop ∧ Stands chars stop used' after ∧
      used'.getLast? = some mark := by
  rcases rest with _ | ⟨g, rest⟩
  · cases hmark
  rw [behindMark?, h.charAt?, h.bump.charAt?]
  rw [Lexeme.imaginaryMark?.eq_def] at hmark
  by_cases hi : g.item = 'i'
  · obtain ⟨rfl, rfl⟩ : g = mark ∧ rest = after := by simpa [hi] using hmark
    exact ⟨_, _, if_pos (congrArg some hi), h.bump, by simp⟩
  · rcases rest with _ | ⟨unit, rest⟩
    · simp [hi] at hmark
    · obtain ⟨hstar, hunit, rfl, rfl⟩ :
          g.item = '*' ∧ unit.item = 'i' ∧ unit = mark ∧ rest = after := by
        simpa [hi] using hmark
      exact ⟨_, _, by simp [hstar, hunit], h.bump.bump, by simp⟩

end Stands

/-! ### Steps by the cursor -/

/-- A step by the cursor is refused as the step is. Or it reads the same lexemes, and the cursor
stands behind the last glyph that the step uses up. -/
inductive Tracks (chars : List Glyph) :
    Guarded (List OpenLexeme × Nat) → Except ParseError Reading → Prop
  | refused (e : ParseError) : Tracks chars (.error (.refused e)) (.error e)
  | read {lexemes : List Lexeme} {opened : List OpenLexeme} {last : Glyph}
      {used rest : List Glyph} {cursor : Nat} (h : Stands chars cursor used rest)
      (hlast : used.getLast? = some last) (hopened : lexemes.map Lexeme.opened = opened) :
      Tracks chars (.ok (opened, cursor)) (.ok ⟨lexemes, last, rest⟩)

variable {chars used rest : List Glyph} {cursor : Nat} {first : Glyph}

/-- A number is read in full, with its mark. -/
theorem tracks_lexNumber (h : Stands chars cursor used (first :: rest))
    (hfirst : first.isNumeral = true) (start : Nat) (negative : Bool) :
    Tracks chars (lexNumber chars cursor start negative)
      (Lexeme.readLiteral start negative first rest) := by
  obtain ⟨hdigits, hafter⟩ := h.run_eq Glyph.isNumeral
  rw [List.takeWhile_cons_of_pos hfirst] at hdigits hafter
  rw [List.dropWhile_cons_of_pos hfirst] at hafter
  have hunmarked : (used ++ first :: rest.takeWhile Glyph.isNumeral).getLast? =
      some ((rest.takeWhile Glyph.isNumeral).getLastD first) := by
    simp [List.getLast?_cons, List.getLastD_eq_getLast?]
  simp only [lexNumber, hdigits, Lexeme.readLiteral]
  cases Decimal.read? ((first :: rest.takeWhile Glyph.isNumeral).map (·.item)) with
  | none => exact .refused _
  | some magnitude =>
    cases hmark : Lexeme.imaginaryMark? (rest.dropWhile Glyph.isNumeral) with
    | none =>
      simp only [hafter.behindMark?_eq_none hmark, hafter.consumedEnd hunmarked]
      exact .read hafter hunmarked rfl
    | some marked =>
      obtain ⟨mark, after⟩ := marked
      obtain ⟨stop, used', hstop, hstands, hlast⟩ := hafter.behindMark?_eq_some hmark
      simp only [hstop, hstands.consumedEnd hlast]
      exact .read hstands hlast rfl

end Cursor

end ComplexFormula
