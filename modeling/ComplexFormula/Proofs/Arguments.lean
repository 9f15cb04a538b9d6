import ComplexFormula.Lexeme.Call

/-!
An argument of a call is read to its end before it shows whether it is a single operand.
-/

namespace ComplexFormula

namespace Lexeme

variable {α β : Type} {name : String} {start : Nat} {ls : List (Spanned (Token α))}

theorem onlyOperand_of_length_ne_one (h : ls.length ≠ 1) : onlyOperand name start ls =
    .error ⟨.wrongCount name .tokensPerArgument 1 ls.length, .offset start⟩ := by
  rcases ls with _ | ⟨l, _ | ⟨other, rest⟩⟩
  · rfl
  · exact absurd rfl h
  · rfl

theorem onlyOperand_eq_ok_iff {a : α} :
    onlyOperand name start ls = .ok a ↔ ∃ l, ls = [l] ∧ l.item = .operand a := by
  constructor
  · intro h
    rcases ls with _ | ⟨l, _ | ⟨other, rest⟩⟩
    · cases h
    · obtain ⟨b | o | _ | _, from', to'⟩ := l <;> cases h
      exact ⟨_, rfl, rfl⟩
    · cases h
  · rintro ⟨⟨item, from', to'⟩, rfl, rfl⟩
    rfl

/-- It does not depend on what the operands are. -/
theorem onlyOperand_map (f : α → β) : onlyOperand name start (ls.map (Spanned.map (Token.map f))) =
    f <$> onlyOperand name start ls := by
  by_cases h : ls.length = 1
  · obtain ⟨⟨a | o | _ | _, from', to'⟩, rfl⟩ := List.length_eq_one_iff.1 h <;> rfl
  · rw [onlyOperand_of_length_ne_one (by simpa using h), onlyOperand_of_length_ne_one h,
      List.length_map]
    rfl

theorem readArgument_eq (reader : Reader) (name : String) (opening : Glyph)
    (argument : List Glyph) : readArgument reader name opening argument =
      reader argument >>= onlyOperand name (argument.headD opening).start := rfl

end Lexeme

end ComplexFormula
