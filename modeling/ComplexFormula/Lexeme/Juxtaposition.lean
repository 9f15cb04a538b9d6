import ComplexFormula.Lexeme.Basic

/-!
Multiplication that is not written. Where an operand ends and a variable, a call or a parenthesis
follows at once, the two are multiplied. A number behind an operand is not: `x2` stays as it is.
-/

namespace ComplexFormula.Lexeme

variable {α β : Type} [HasNumbers α] [HasNumbers β]

/-- Whether the token can be a factor behind another without a sign between them. -/
def beginsFactor : Token α → Bool
  | .operand a => !HasNumbers.isNumber a
  | .opening => true
  | _ => false

/-- Whether two neighbours are multiplied without a sign. -/
def juxtaposed (left right : Spanned (Token α)) : Bool :=
  left.item.endsOperand && beginsFactor right.item

/-- The `*` that is read between two neighbours, in no bytes of its own. -/
def times (right : Spanned (Token α)) : Spanned (Token α) :=
  ⟨.operator .mul, right.start, right.start⟩

/-- Writes out each `*` between neighbours that are multiplied. -/
def multiply : List (Spanned (Token α)) → List (Spanned (Token α))
  | [] => []
  | [last] => [last]
  | left :: right :: rest =>
    if juxtaposed left right then left :: times right :: multiply (right :: rest)
    else left :: multiply (right :: rest)

/-- Where a `*` is written out does not depend on what the operands are but for the numbers. -/
theorem multiply_map {f : α → β} (hf : ∀ a, HasNumbers.isNumber (f a) = HasNumbers.isNumber a)
    (ls : List (Spanned (Token α))) :
    multiply (ls.map (Spanned.map (Token.map f))) =
      (multiply ls).map (Spanned.map (Token.map f)) := by
  have hbegins (t : Token α) : beginsFactor (t.map f) = beginsFactor t := by
    cases t with
    | operand a => exact congrArg (! ·) (hf a)
    | _ => rfl
  have hjuxtaposed (left right : Spanned (Token α)) :
      juxtaposed (left.map (Token.map f)) (right.map (Token.map f)) = juxtaposed left right := by
    rw [juxtaposed, juxtaposed, Spanned.map, Spanned.map, hbegins, Token.endsOperand_map]
  fun_induction multiply ls with
  | case1 => rfl
  | case2 => rfl
  | case3 left right rest h ih =>
    rw [List.map_cons, List.map_cons, multiply, hjuxtaposed, if_pos h, ← List.map_cons, ih]
    rfl
  | case4 left right rest h ih =>
    rw [List.map_cons, List.map_cons, multiply, hjuxtaposed, if_neg h, ← List.map_cons, ih]
    rfl

variable {ls : List Lexeme}

theorem head?_multiply (ls : List Lexeme) : (multiply ls).head? = ls.head? := by
  fun_induction multiply ls <;> rfl

/-- Only operators are written out. -/
theorem filter_multiply {p : Lexeme → Bool} (hp : ∀ l, p (times l) = false) :
    (multiply ls).filter p = ls.filter p := by
  fun_induction multiply ls with
  | case1 => rfl
  | case2 => rfl
  | case3 left right rest _ ih =>
    simp only [List.filter_cons, hp] at ih ⊢
    rw [ih]
    rfl
  | case4 left right rest _ ih =>
    simp only [List.filter_cons] at ih ⊢
    rw [ih]

theorem mem_multiply {l : Lexeme} (h : l ∈ multiply ls) :
    l ∈ ls ∨ ∃ right ∈ ls, l = times right := by
  have tail {left : Lexeme} {rest : List Lexeme}
      (h : l ∈ rest ∨ ∃ right ∈ rest, l = times right) :
      l ∈ left :: rest ∨ ∃ right ∈ left :: rest, l = times right := by
    rcases h with h | ⟨right, hright, heq⟩
    · exact .inl (.tail _ h)
    · exact .inr ⟨right, .tail _ hright, heq⟩
  fun_induction multiply ls with
  | case1 => cases h
  | case2 => exact .inl h
  | case3 left right rest _ ih =>
    rcases List.mem_cons.1 h with rfl | h
    · exact .inl (.head _)
    rcases List.mem_cons.1 h with rfl | h
    · exact .inr ⟨right, by simp, rfl⟩
    · exact tail (ih h)
  | case4 left right rest _ ih =>
    rcases List.mem_cons.1 h with rfl | h
    · exact .inl (.head _)
    · exact tail (ih h)

end ComplexFormula.Lexeme
