import ComplexFormula.ComplexFloat.Basic
import ComplexFormula.Decimal.Positional

/-!
The text of a complex float, such as `2+0i` or `0.5-3i`.
-/

namespace ComplexFormula.ComplexFloat

/-- A float with its sign taken off if it is below zero; a negative zero keeps its sign. -/
def unsigned (f : Float) : Float :=
  if f < 0 then 0 - f else f

/-- Both parts, joined by the sign of the imaginary one. -/
def text (z : ComplexFloat) : String :=
  (if z.re < 0 then "-" else "") ++ Decimal.text (unsigned z.re)
    ++ (if z.im < 0 then "-" else "+") ++ Decimal.text (unsigned z.im) ++ "i"

end ComplexFormula.ComplexFloat
