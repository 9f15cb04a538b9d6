import ComplexFormula.ParseError
import ComplexFormula.Token

/-!
Postfix order: each operator behind its two operands, and no parentheses. Operands keep their order.
An operator waits until one arrives that does not bind before it, or until its parenthesis closes.
-/

namespace ComplexFormula.Postfix

variable {α : Type}

/-- A parenthesis that is open: where it stands, and the operators that wait outside it, the last
one first. -/
structure Frame where
  start : Nat
  outer : List (Spanned Operator)

/-- Operators as terms. -/
def release (operators : List (Spanned Operator)) : List (Spanned (Term α)) :=
  operators.map (Spanned.map .operator)

/-- The terms of a run of tokens, given the operators that wait in the innermost parenthesis, the
last one first, and the parentheses that are open, the innermost first. -/
def arrange (limit : Nat) (waiting : List (Spanned Operator)) (frames : List Frame) :
    List (Spanned (Token α)) → Except ParseError (List (Spanned (Term α)))
  | [] =>
    match frames with
    | [] => .ok (release waiting)
    | innermost :: _ => .error ⟨.unbalancedParentheses, .offset innermost.start⟩
  | ⟨.operand a, start, stop⟩ :: rest =>
    (⟨.operand a, start, stop⟩ :: ·) <$> arrange limit waiting frames rest
  | ⟨.operator o, start, stop⟩ :: rest =>
    let goesFirst (w : Spanned Operator) := w.item.bindsBefore o
    (release (waiting.takeWhile goesFirst) ++ ·) <$>
      arrange limit (⟨o, start, stop⟩ :: waiting.dropWhile goesFirst) frames rest
  | ⟨.opening, start, _⟩ :: rest =>
    if limit ≤ frames.length then .error ⟨.nestingTooDeep limit, .offset start⟩
    else arrange limit [] (⟨start, waiting⟩ :: frames) rest
  | ⟨.closing, start, _⟩ :: rest =>
    match frames with
    | [] => .error ⟨.unbalancedParentheses, .offset start⟩
    | innermost :: frames => (release waiting ++ ·) <$> arrange limit innermost.outer frames rest

/-- The terms of a run of tokens whose parentheses nest at most `limit` levels deep. -/
def ofTokens (limit : Nat) (tokens : List (Spanned (Token α))) :
    Except ParseError (List (Spanned (Term α))) :=
  arrange limit [] [] tokens

end ComplexFormula.Postfix
