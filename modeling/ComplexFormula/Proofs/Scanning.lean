import ComplexFormula.Formula
import ComplexFormula.Proofs.Success

/-!
The runs of the scanner: each step reads from the first glyph that is left, and the next one goes on
from what that step leaves.
-/

namespace ComplexFormula

namespace Lexeme

variable {limit : Nat} {inner : Option Reader} {before : Option Glyph} {gs : List Glyph}
  {ls : List Lexeme}

theorem scan_nil : scan limit inner before [] = .ok [] := by
  rw [scan, scanM]
  rfl

theorem scan_cons (g : Glyph) (rest : List Glyph) : scan limit inner before (g :: rest) =
    readOne limit inner before g rest >>= fun r =>
      (r.lexemes ++ ·) <$> scan limit inner (some r.last) r.rest := by
  rw [scan, scanM, advance]
  split <;> simp only [*] <;> rfl

/-- What holds behind any glyphs if it does behind less of them. A step leaves less. -/
theorem scan_induction {motive : Option Glyph → List Glyph → Prop}
    (nil : ∀ before, motive before [])
    (cons : ∀ before g rest, (∀ last behind, behind.length ≤ rest.length → motive last behind) →
      motive before (g :: rest)) (before : Option Glyph) (gs : List Glyph) : motive before gs := by
  induction hlength : gs.length using Nat.strongRecOn generalizing before gs with
  | _ length ih =>
    cases gs with
    | nil => exact nil before
    | cons g rest =>
      refine cons before g rest fun last behind hbehind => ih behind.length ?_ last behind rfl
      rw [← hlength]
      exact Nat.lt_succ_of_le hbehind

/-- The glyphs are read to the end step by step, and these are the lexemes. -/
inductive Scans (limit : Nat) (inner : Option Reader) :
    Option Glyph → List Glyph → List Lexeme → Prop
  | nil (before : Option Glyph) : Scans limit inner before [] []
  | cons {before : Option Glyph} {g : Glyph} {rest : List Glyph} {r : Reading} {tail : List Lexeme}
      (h : readOne limit inner before g rest = .ok r)
      (htail : Scans limit inner (some r.last) r.rest tail) :
      Scans limit inner before (g :: rest) (r.lexemes ++ tail)

theorem scan_eq_ok_iff : scan limit inner before gs = .ok ls ↔ Scans limit inner before gs ls := by
  constructor
  · intro h
    induction before, gs using scan_induction generalizing ls with
    | nil before =>
      rw [scan_nil] at h
      cases h
      exact .nil before
    | cons before g rest ih =>
      rw [scan_cons] at h
      obtain ⟨r, hr, h⟩ := Except.bind_eq_ok_iff.1 h
      obtain ⟨tail, htail, rfl⟩ := Except.map_eq_ok_iff.1 h
      exact .cons hr (ih _ _ (length_of_readOne hr) htail)
  · intro h
    induction h with
    | nil => exact scan_nil
    | cons h _ ih => rw [scan_cons, h, Except.ok_bind, ih, Except.map_ok]

/-- The reader of arguments, if there is a level left for them. -/
def innerReader (limit : Nat) : Nat → Option Reader
  | 0 => none
  | levels + 1 => some (read limit levels)

theorem read_eq (limit levels : Nat) (gs : List Glyph) :
    read limit levels gs = multiply <$> scan limit (innerReader limit levels) none gs := by
  cases levels <;> rfl

theorem read_eq_ok_iff {levels : Nat} : read limit levels gs = .ok ls ↔
    ∃ scanned, Scans limit (innerReader limit levels) none gs scanned ∧ multiply scanned = ls := by
  rw [read_eq, Except.map_eq_ok_iff]
  simp only [scan_eq_ok_iff]

end Lexeme

/-- The lexemes of a formula are those that are scanned and each `*` that is not written. -/
theorem Formula.lexemes_eq_ok_iff {f : Formula} {ls : List Lexeme} : f.lexemes = .ok ls ↔
    ∃ scanned, Lexeme.Scans f.depthLimit (Lexeme.innerReader f.depthLimit f.depthLimit) none
      (glyphs f.text) scanned ∧ Lexeme.multiply scanned = ls :=
  Lexeme.read_eq_ok_iff

end ComplexFormula
