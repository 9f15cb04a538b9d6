import ComplexFormula.Lexeme.Call
import ComplexFormula.Lexeme.Juxtaposition

/-!
The lexemes of a text. A `-` is a sign where no operand ends before it: it is part of a number that
follows, and `-1 *` before a variable, a call or a parenthesis. An argument of a call is read in the
same way, one level deeper.
-/

namespace ComplexFormula

namespace Lexeme

/-- Whether an operand is awaited, going by the last glyph that was used up. -/
def awaitsOperand : Option Glyph → Bool
  | none => true
  | some g => !g.endsOperand

/-- Reads from a `-` where an operand is awaited. If nothing that can be negated follows, the `-` is
an operator without an operand. -/
def readSign (minus : Glyph) (rest : List Glyph) : Except ParseError Reading :=
  match rest with
  | [] => .ok (.single (.operator .sub) minus [])
  | next :: after =>
    match next.charClass with
    | .numeral => readLiteral minus.start true next after
    | .free | .imaginaryUnit | .letter | .opening =>
      .ok ⟨[minus.map fun _ => .operand (.number .minusOne), minus.map fun _ => .operator .mul],
        minus, rest⟩
    | _ => .ok (.single (.operator .sub) minus rest)

/-- Reads from the glyph `g`, where `before` is the last glyph used up so far. -/
def readOne (limit : Nat) (inner : Option Reader) (before : Option Glyph) (g : Glyph)
    (rest : List Glyph) : Except ParseError Reading :=
  match g.charClass with
  | .numeral => readLiteral g.start false g rest
  | .free => .ok (.single (.operand .free) g rest)
  | .imaginaryUnit => .ok (.single (.operand (.number .imaginaryUnit)) g rest)
  | .letter => readCall limit inner g rest
  | .opening => .ok (.single .opening g rest)
  | .closing => .ok (.single .closing g rest)
  | .operator o =>
    if o = .sub ∧ awaitsOperand before then readSign g rest
    else .ok (.single (.operator o) g rest)
  | .foreign => .error ⟨.unexpectedCharacter g.item, .offset g.start⟩

/-- Each step uses up at least its first glyph. -/
theorem length_of_readOne {limit : Nat} {inner : Option Reader} {before : Option Glyph} {g : Glyph}
    {rest : List Glyph} {r : Reading} (h : readOne limit inner before g rest = .ok r) :
    r.rest.length ≤ rest.length := by
  unfold readOne at h
  split at h
  · exact length_of_readLiteral h
  · cases h; exact Nat.le_refl _
  · cases h; exact Nat.le_refl _
  · exact length_of_readCall h
  · cases h; exact Nat.le_refl _
  · cases h; exact Nat.le_refl _
  · split at h
    · unfold readSign at h
      split at h
      · cases h; exact Nat.le_refl _
      · split at h
        · exact Nat.le_succ_of_le (length_of_readLiteral h)
        all_goals cases h; exact Nat.le_refl _
    · cases h; exact Nat.le_refl _
  · cases h

/-- What a step yields in front of the glyphs `behind`. It leaves no more than these. -/
structure Advance (α : Type) (behind : List Glyph) extends ReadingOf α where
  length_le : rest.length ≤ behind.length

/-- Reads step by step to the end. -/
def scanM {m : Type → Type} [Monad m] {α : Type}
    (step : Option Glyph → Glyph → (rest : List Glyph) → m (Advance α rest))
    (before : Option Glyph) (gs : List Glyph) : m (List (Spanned (Token α))) :=
  match gs with
  | [] => pure []
  | g :: rest => do
    let r ← step before g rest
    (r.lexemes ++ ·) <$> scanM step (some r.last) r.rest
termination_by gs.length
decreasing_by exact Nat.lt_succ_of_le r.length_le

/-- A step with operands as they are written. -/
def advance (limit : Nat) (inner : Option Reader) (before : Option Glyph) (g : Glyph)
    (rest : List Glyph) : Except ParseError (Advance Atom rest) :=
  match h : readOne limit inner before g rest with
  | .error e => .error e
  | .ok r => .ok ⟨r, length_of_readOne h⟩

/-- Reads to the end with operands as they are written. -/
def scan (limit : Nat) (inner : Option Reader) (before : Option Glyph) (gs : List Glyph) :
    Except ParseError (List Lexeme) :=
  scanM (advance limit inner) before gs

/-- Readers inside each other, as many levels deep as are left. The innermost one has none for the
arguments of its calls. A reader is made only when glyphs are there for it, for the levels may be
far more than are used. -/
def nested {m : Type → Type} {α : Type} (reader : Option (ReaderM m α) → ReaderM m α) :
    Nat → ReaderM m α
  | 0, gs => reader none gs
  | levels + 1, gs => reader (some (nested reader levels)) gs

/-- Reads glyphs that may hold calls inside each other as many levels deep as are left. -/
def read (limit : Nat) : Nat → Reader :=
  nested fun inner gs => multiply <$> scan limit inner none gs

/-- The lexemes of a text whose calls nest at most `limit` levels deep. -/
def ofText (limit : Nat) (text : String) : Except ParseError (List Lexeme) :=
  read limit limit (glyphs text)

end Lexeme

end ComplexFormula
