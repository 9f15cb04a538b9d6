/-!
Reading a decimal literal: digits with at most one point, which may stand at either end. The value
is the float nearest to the decimal, with ties to the even significand.
-/

namespace ComplexFormula

namespace Decimal

/-- The whole number that a run of digits writes. -/
def ofDigits (digits : List Char) : Nat :=
  digits.foldl (fun n c => 10 * n + (c.toNat - '0'.toNat)) 0

/-- The float that a literal writes, `none` for a text that has no digit or more than a point beside
its digits. -/
def read? (literal : List Char) : Option Float :=
  let whole := literal.takeWhile Char.isDigit
  match literal.dropWhile Char.isDigit with
  | [] => if whole.isEmpty then none else some (Float.ofNat (ofDigits whole))
  | point :: places =>
    if point = '.' ∧ places.all Char.isDigit ∧ ¬(whole ++ places).isEmpty then
      some (Float.ofScientific (ofDigits (whole ++ places)) true places.length)
    else none

end Decimal

end ComplexFormula
