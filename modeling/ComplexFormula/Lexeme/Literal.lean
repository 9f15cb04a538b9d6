import ComplexFormula.Decimal.Literal
import ComplexFormula.Lexeme.Basic

/-!
Reading a number: digits and points, and behind them `i` or `*i` if the number is imaginary.
-/

namespace ComplexFormula

namespace Lexeme

/-- The mark of an imaginary number at the front of some glyphs: its last glyph and those left. -/
def imaginaryMark? : List Glyph → Option (Glyph × List Glyph)
  | [] => none
  | g :: rest =>
    if g.item = 'i' then some (g, rest)
    else if g.item = '*' then
      match rest with
      | unit :: rest => if unit.item = 'i' then some (unit, rest) else none
      | [] => none
    else none

/-- Reads the number that begins with the glyph `first`. Its lexeme begins at `start`, which is
where its sign stands if it is negative. -/
def readLiteral (start : Nat) (negative : Bool) (first : Glyph) (rest : List Glyph) :
    Except ParseError Reading :=
  let digits := rest.takeWhile Glyph.isNumeral
  let after := rest.dropWhile Glyph.isNumeral
  let literal := (first :: digits).map (·.item)
  match Decimal.read? literal with
  | none => .error ⟨.malformedLiteral (String.ofList literal), .offset start⟩
  | some magnitude =>
    let value := if negative then -magnitude else magnitude
    match imaginaryMark? after with
    | some (mark, rest) => .ok ⟨[⟨.operand (.number ⟨0, value⟩), start, mark.stop⟩], mark, rest⟩
    | none =>
      let last := digits.getLastD first
      .ok ⟨[⟨.operand (.number ⟨value, 0⟩), start, last.stop⟩], last, after⟩

theorem length_of_imaginaryMark? {gs rest : List Glyph} {g : Glyph}
    (h : imaginaryMark? gs = some (g, rest)) : rest.length ≤ gs.length := by
  unfold imaginaryMark? at h
  split at h
  · simp at h
  · split at h
    · simp_all
    · split at h
      · split at h
        · split at h
          · simp only [Option.some.injEq, Prod.mk.injEq] at h
            simp [← h.2]
            omega
          · simp at h
        · simp at h
      · simp at h

/-- Reading a number leaves no more than stood behind its first glyph. -/
theorem length_of_readLiteral {start : Nat} {negative : Bool} {first : Glyph} {rest : List Glyph}
    {r : Reading} (h : readLiteral start negative first rest = .ok r) :
    r.rest.length ≤ rest.length := by
  have hdrop := (List.dropWhile_sublist (l := rest) Glyph.isNumeral).length_le
  simp only [readLiteral] at h
  split at h
  · simp at h
  · split at h
    · next hmark =>
      have := length_of_imaginaryMark? hmark
      simp only [Except.ok.injEq] at h
      subst h
      exact Nat.le_trans this hdrop
    · simp only [Except.ok.injEq] at h
      subst h
      exact hdrop

end Lexeme

end ComplexFormula
