import ComplexFormula.Proofs.Arguments
import ComplexFormula.Proofs.Spelling
import ComplexFormula.Proofs.Steps

/-!
A text that stands in another, and is read there as an argument. It is read as it is on its own,
under the levels that are left for it, only that all offsets are counted from the start of the whole
text and an error names the limit of the whole.
-/

namespace Except

variable {ε ε' α β : Type} {k : ε → ε'}

theorem mapError_bind (u : Except ε α) (f : α → Except ε β) :
    (u >>= f).mapError k = u.mapError k >>= fun a => (f a).mapError k := by
  cases u <;> rfl

theorem mapError_map (f : α → β) (u : Except ε α) :
    (f <$> u).mapError k = f <$> u.mapError k := by
  cases u <;> rfl

theorem mapError_mapM (f : α → Except ε β) (as : List α) :
    (as.mapM f).mapError k = as.mapM fun a => (f a).mapError k := by
  induction as with
  | nil => rfl
  | cons a as ih =>
    rw [List.mapM_cons, List.mapM_cons, mapError_bind, ← ih]
    congr 1
    funext b
    rw [mapError_bind]
    rfl

end Except

namespace ComplexFormula

open List (Forall₂)

/-- The fault, with another limit named if it is one of nesting. -/
def Fault.naming (limit : Nat) : Fault → Fault
  | nestingTooDeep _ => nestingTooDeep limit
  | fault => fault

/-- The position in a text in front of which `base` bytes are put. -/
def Position.behind (base : Nat) : Position → Position
  | unknown => unknown
  | offset bytes => offset (base + bytes)

namespace ParseError

/-- The error, with another limit named. -/
def naming (limit : Nat) (e : ParseError) : ParseError :=
  ⟨e.fault.naming limit, e.position⟩

/-- The error of a text as it shows where the text stands at the byte `base` of a formula that names
its own limit. -/
def moved (limit base : Nat) (e : ParseError) : ParseError :=
  ⟨e.fault.naming limit, e.position.behind base⟩

end ParseError

/-! ### The limit is only named -/

namespace Lexeme

variable {limit limit' : Nat} {inner inner' : Option Reader}

/-- The two readers differ in the limit that they name. -/
def SameBut (limit : Nat) (reader reader' : Reader) : Prop :=
  ∀ gs, reader gs = (reader' gs).mapError (.naming limit)

theorem onlyOperand_naming {α : Type} (name : String) (start : Nat)
    (ls : List (Spanned (Token α))) :
    (onlyOperand name start ls).mapError (.naming limit) = onlyOperand name start ls := by
  rcases ls with _ | ⟨⟨a | o | _ | _, from', to'⟩, _ | ⟨other, rest⟩⟩ <;> rfl

theorem readArgument_naming {reader reader' : Reader} (h : SameBut limit reader reader')
    (name : String) (opening : Glyph) (argument : List Glyph) :
    readArgument reader name opening argument =
      (readArgument reader' name opening argument).mapError (.naming limit) := by
  simp only [readArgument_eq, Except.mapError_bind, h argument, onlyOperand_naming]

theorem call_naming (name : String) (atoms : List Atom) (position : Position) :
    (Atom.call name atoms position).mapError (.naming limit) = Atom.call name atoms position := by
  unfold Atom.call Builtin.call
  split <;> rfl

theorem readInside_naming {reader reader' : Reader} (h : SameBut limit reader reader')
    (call : UnreadCall) : readInside Atom.call reader call =
      (readInside Atom.call reader' call).mapError (.naming limit) := by
  simp only [readInside, Except.mapError_bind, Except.mapError_mapM, call_naming,
    ← readArgument_naming h]
  rfl

theorem readCall_naming (h : Option.Rel (SameBut limit) inner inner') (first : Glyph)
    (rest : List Glyph) : readCall limit inner first rest =
      (readCall limit' inner' first rest).mapError (.naming limit) := by
  simp only [readCall, cutCall]
  split
  · rfl
  next opening inside _ =>
  split
  · rfl
  cases h with
  | none => rfl
  | some hreader =>
    dsimp only
    split
    · rfl
    · rw [Except.ok_bind, Except.ok_bind, Except.mapError_bind, ← readInside_naming hreader]
      rfl

theorem readLiteral_naming (start : Nat) (negative : Bool) (first : Glyph) (rest : List Glyph) :
    (readLiteral start negative first rest).mapError (.naming limit) =
      readLiteral start negative first rest := by
  unfold readLiteral
  dsimp only
  split
  · rfl
  · split <;> rfl

/-- Only a call can nest too deep. -/
theorem readOne_naming_of_ne {before : Option Glyph} {g : Glyph} {rest : List Glyph}
    (hclass : g.charClass ≠ .letter) :
    (readOne limit' inner before g rest).mapError (.naming limit) =
      readOne limit' inner before g rest := by
  unfold readOne
  cases hg : g.charClass with
  | letter => exact absurd hg hclass
  | numeral => exact readLiteral_naming _ _ _ _
  | operator o =>
    dsimp only
    split
    · unfold readSign
      split
      · rfl
      · split
        · exact readLiteral_naming _ _ _ _
        all_goals rfl
    · rfl
  | _ => rfl

theorem readOne_naming (h : Option.Rel (SameBut limit) inner inner') (before : Option Glyph)
    (g : Glyph) (rest : List Glyph) : readOne limit inner before g rest =
      (readOne limit' inner' before g rest).mapError (.naming limit) := by
  by_cases hclass : g.charClass = .letter
  · rw [readOne_of_letter hclass, readOne_of_letter hclass]
    exact readCall_naming h g rest
  · rw [readOne_naming_of_ne hclass]
    exact readOne_congr hclass

theorem scan_naming (h : Option.Rel (SameBut limit) inner inner') (before : Option Glyph)
    (gs : List Glyph) : scan limit inner before gs =
      (scan limit' inner' before gs).mapError (.naming limit) := by
  induction before, gs using scan_induction with
  | nil before =>
    rw [scan_nil, scan_nil]
    rfl
  | cons before g rest ih =>
    rw [scan_cons, scan_cons, Except.mapError_bind, ← readOne_naming h]
    cases hread : readOne limit inner before g rest with
    | error e => rfl
    | ok r =>
      rw [Except.ok_bind, Except.ok_bind, Except.mapError_map,
        ← ih (some r.last) r.rest (length_of_readOne hread)]

/-- What is read does not depend on the limit that is named, but on the levels that are left. -/
theorem sameBut_read (limit limit' levels : Nat) :
    SameBut limit (read limit levels) (read limit' levels) := by
  induction levels with
  | zero =>
    intro gs
    rw [read_eq, read_eq, Except.mapError_map]
    exact congrArg _ (scan_naming .none none gs)
  | succ levels ih =>
    intro gs
    rw [read_eq, read_eq, Except.mapError_map]
    exact congrArg _ (scan_naming (.some ih) none gs)

end Lexeme

/-! ### Offsets are counted from the start of the whole -/

theorem glyphsFrom_alike (base start : Nat) (cs : List Char) :
    Forall₂ (Spanned.Alike fun p q => q = base + p) (glyphsFrom start cs)
      (glyphsFrom (base + start) cs) := by
  induction cs generalizing start with
  | nil => exact .nil
  | cons c cs ih =>
    rw [glyphsFrom, glyphsFrom, Nat.add_assoc]
    split
    · exact ih _
    · exact .cons ⟨rfl, rfl⟩ (ih _)

/-- How a text is read from the byte `base` on, as the innermost of some calls, is told by how it is
read on its own. -/
theorem Formula.read_moved {t : String} {levels : Nat} (limit base : Nat) :
    (∀ e, (Formula.mk t levels).lexemes = .error e →
      Lexeme.read limit levels (glyphsFrom base t.toList) = .error (e.moved limit base)) ∧
    ∀ ls, (Formula.mk t levels).lexemes = .ok ls →
      ∃ ls', Lexeme.read limit levels (glyphsFrom base t.toList) = .ok ls' ∧
        Forall₂ (Spanned.Alike fun p q => q = base + p) ls ls' := by
  have hagree : Agree (fun p q => q = base + p) _ (Formula.mk t levels).lexemes
      (Lexeme.read levels levels (glyphsFrom base t.toList)) :=
    Lexeme.uniform_read levels levels (glyphsFrom_alike base 0 t.toList)
  rw [Lexeme.sameBut_read limit levels levels]
  generalize (Formula.mk t levels).lexemes = u, Lexeme.read levels levels _ = v at hagree
  cases hagree with
  | ok h => exact ⟨nofun, fun ls hls => ⟨_, rfl, Except.ok.inj hls ▸ h⟩⟩
  | unplaced fault => exact ⟨fun e he => Except.error.inj he ▸ rfl, nofun⟩
  | placed fault h => exact ⟨fun e he => by cases he; rw [h]; rfl, nofun⟩

end ComplexFormula
