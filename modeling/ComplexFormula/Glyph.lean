import ComplexFormula.Operator
import ComplexFormula.Spanned
import ComplexFormula.Text.Blank

/-!
The characters of a formula that count: all but the blanks, in lower case, each with its bytes. A
blank may stand anywhere, also between two digits, so what is read from a text is read from its
glyphs.
-/

namespace ComplexFormula

/-- A character of the formula and the bytes it takes up. -/
abbrev Glyph := Spanned Char

/-- The glyphs of a run of characters that starts at a byte offset. -/
def glyphsFrom (start : Nat) : List Char → List Glyph
  | [] => []
  | c :: rest =>
    let stop := start + c.utf8Size
    if Text.isBlank c then glyphsFrom stop rest
    else ⟨c.toLower, start, stop⟩ :: glyphsFrom stop rest

/-- The glyphs of a text. -/
def glyphs (text : String) : List Glyph :=
  glyphsFrom 0 text.toList

/-- What a character can begin. -/
inductive CharClass
  /-- A digit or a point. -/
  | numeral
  /-- The free variable. -/
  | free
  /-- The imaginary unit on its own. -/
  | imaginaryUnit
  /-- Any other letter, which begins the name of a function. -/
  | letter
  | opening
  | closing
  | operator (o : Operator)
  /-- A character that no formula holds outside an argument list. -/
  | foreign
  deriving DecidableEq, Repr

namespace Glyph

/-- Whether the glyph can be part of a number. -/
def isNumeral (g : Glyph) : Bool :=
  g.item.isDigit || g.item == '.'

/-- Whether the glyph can be part of a name. -/
def isLetter (g : Glyph) : Bool :=
  g.item.isAlpha

/-- The class of a glyph. -/
def charClass (g : Glyph) : CharClass :=
  if g.isNumeral then .numeral
  else if g.item = 'x' then .free
  else if g.item = 'i' then .imaginaryUnit
  else if g.isLetter then .letter
  else if g.item = '(' then .opening
  else if g.item = ')' then .closing
  else match Operator.ofSymbol? g.item with
    | some o => .operator o
    | none => .foreign

/-- Whether an operand can end with the glyph. A point ends a number such as `2.`. -/
def endsOperand (g : Glyph) : Bool :=
  g.item.isAlphanum || g.item == ')' || g.item == '.'

end Glyph

end ComplexFormula
