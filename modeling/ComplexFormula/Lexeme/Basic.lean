import ComplexFormula.Atom
import ComplexFormula.Glyph
import ComplexFormula.Token

/-!
Lexemes, the tokens of a formula with the bytes that each was read from, and what one step of
reading yields.
-/

namespace ComplexFormula

/-- A token and the bytes it was read from. -/
abbrev Lexeme := Spanned (Token Atom)

namespace Lexeme

/-- The text of a lexeme: its token and its interval. -/
def text (l : Lexeme) : String :=
  Spanned.text (Token.text Atom.text) l

end Lexeme

/-- What a step of reading yields: the lexemes it read, the last glyph it used up, and the glyphs
that are left. -/
structure ReadingOf (α : Type) where
  lexemes : List (Spanned (Token α))
  last : Glyph
  rest : List Glyph

/-- What a step yields that reads operands as they are written. -/
abbrev Reading := ReadingOf Atom

/-- The reading of a single glyph as a token of its own. -/
def Reading.single (token : Token Atom) (g : Glyph) (rest : List Glyph) : Reading :=
  ⟨[g.map fun _ => token], g, rest⟩

end ComplexFormula
