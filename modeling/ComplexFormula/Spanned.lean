/-!
Something read from a text, together with the bytes it was read from.
-/

namespace ComplexFormula

/-- An item and the half-open interval of byte offsets that it takes up in the text. -/
structure Spanned (α : Type) where
  item : α
  start : Nat
  stop : Nat
  deriving DecidableEq, Repr

namespace Spanned

variable {α β : Type}

/-- Another item in the same place. -/
def map (f : α → β) (s : Spanned α) : Spanned β :=
  ⟨f s.item, s.start, s.stop⟩

/-- The item's text followed by its interval. -/
def text (itemText : α → String) (s : Spanned α) : String :=
  itemText s.item ++ " [" ++ s.start.repr ++ ", " ++ s.stop.repr ++ ")"

end Spanned

end ComplexFormula
