import ComplexFormula.ParseError
import ComplexFormula.Proofs.Success

/-!
Runs that look at what a run takes for granted. Where a number would fall below zero, an index would
lie outside, or something would be missing that is always there, such a run ends in a breach. A text
that is no formula is refused as it always is.
-/

namespace ComplexFormula

/-- What a run takes for granted and does not find. -/
inductive Breach
  /-- A glyph in front of the cursor. -/
  | cursorAtStart
  /-- An open parenthesis among the arguments of a call. -/
  | levelAtBottom
  /-- An open parenthesis among the tokens. -/
  | depthAtBottom
  /-- The glyphs of an argument. -/
  | argumentOutside
  /-- The first letter of a call. -/
  | callWithoutName
  /-- The token of an argument that has one. -/
  | argumentWithoutToken
  /-- A step that uses up a glyph. -/
  | cursorAtRest
  /-- Terms without parentheses. -/
  | parenthesisAmongTerms
  /-- The node that was just made. -/
  | nodeMissing
  /-- A node that is laid out for the first time. -/
  | nodeTaken
  /-- The value of a side. -/
  | valueOutside
  /-- As many arguments as the function takes. -/
  | wrongArity
  /-- The root. -/
  | noNodes
  deriving DecidableEq, Repr

/-- Why a guarded run ends before it is done. -/
inductive Stop
  | refused (e : ParseError)
  | broken (b : Breach)
  deriving DecidableEq, Repr

/-- The outcome of a guarded run. -/
abbrev Guarded (α : Type) := Except Stop α

namespace Guarded

variable {α β : Type}

/-- The text is refused for a fault that shows at an offset. -/
def refuse (fault : Fault) (start : Nat) : Guarded α :=
  .error (.refused ⟨fault, .offset start⟩)

/-- What is there, or else a breach. -/
def require (b : Breach) : Option α → Guarded α
  | some a => .ok a
  | none => .error (.broken b)

/-- The number before another, or else a breach. -/
def pred (b : Breach) : Nat → Guarded Nat
  | n + 1 => .ok n
  | 0 => .error (.broken b)

/-- A run that takes nothing for granted. -/
def lift : Except ParseError α → Guarded α
  | .ok a => .ok a
  | .error e => .error (.refused e)

@[simp] theorem lift_ok (a : α) : lift (.ok a) = .ok a := rfl

@[simp] theorem lift_error (e : ParseError) : (lift (.error e) : Guarded α) = .error (.refused e) :=
  rfl

/-- Steps that are lifted one by one are lifted as a whole. -/
theorem mapM_eq_lift {γ : Type} {f : α → Except ParseError β} {k : β → γ} {g : α → Guarded γ}
    (h : ∀ a, g a = lift (k <$> f a)) (as : List α) :
    as.mapM g = lift (List.map k <$> as.mapM f) := by
  induction as with
  | nil => rfl
  | cons a as ih =>
    rw [List.mapM_cons, List.mapM_cons, h, ih]
    cases f a with
    | error e => rfl
    | ok b => cases as.mapM f <;> rfl

/-- A lifted run is never broken. -/
theorem lift_ne_broken (u : Except ParseError α) (b : Breach) : lift u ≠ .error (.broken b) := by
  cases u <;> nofun

end Guarded

end ComplexFormula
