import ComplexFormula.Binary64
import ComplexFormula.ComplexFloat.Polar

/-!
The elementary functions of a complex float, each by its formula in the real functions of the two
components.
-/

namespace ComplexFormula.ComplexFloat

/-- Sine. -/
def sin (z : ComplexFloat) : ComplexFloat :=
  ⟨Float.sin z.re * Float.cosh z.im, Float.cos z.re * Float.sinh z.im⟩

/-- Cosine. -/
def cos (z : ComplexFloat) : ComplexFloat :=
  ⟨Float.cos z.re * Float.cosh z.im, -Float.sin z.re * Float.sinh z.im⟩

/-- Tangent, by the double angle. -/
def tan (z : ComplexFloat) : ComplexFloat :=
  let a := z.re + z.re
  let b := z.im + z.im
  let m := Float.cos a + Float.cosh b
  ⟨Float.sin a / m, Float.sinh b / m⟩

/-- Hyperbolic sine. -/
def sinh (z : ComplexFloat) : ComplexFloat :=
  ⟨Float.sinh z.re * Float.cos z.im, Float.cosh z.re * Float.sin z.im⟩

/-- Hyperbolic cosine. -/
def cosh (z : ComplexFloat) : ComplexFloat :=
  ⟨Float.cosh z.re * Float.cos z.im, Float.sinh z.re * Float.sin z.im⟩

/-- The exponential. Where the modulus is zero or infinite and the angle means nothing, the limit
is given instead of a NaN. -/
def exp (z : ComplexFloat) : ComplexFloat :=
  if z.re.isInf && z.re < 0 && !z.im.isFinite then zero
  else if z.re.isInf && 0 < z.re && (z.im == 0 || !z.im.isFinite) then
    ⟨z.re, if z.im.isInf then 0 / 0 else z.im⟩
  else if z.re.isNaN && z.im == 0 then z
  else ofPolar (Float.exp z.re) z.im

/-- `magnitude` with the sign of `sign`. -/
def withSignOf (sign magnitude : Float) : Float :=
  if Binary64.hasSign sign then -magnitude else magnitude

/-- The square root with a real part that is not negative. On the axes it is found without the
polar form, and on the negative real axis the sign of the zero picks the side. NaN counts as
positive. -/
def sqrt (z : ComplexFloat) : ComplexFloat :=
  if z.im == 0 then
    if Binary64.hasSign z.re then ⟨0, withSignOf z.im (Float.sqrt (-z.re))⟩
    else ⟨Float.sqrt z.re, z.im⟩
  else if z.re == 0 then
    let x := Float.sqrt (z.im.abs / 2)
    ⟨x, withSignOf z.im x⟩
  else ofPolar (Float.sqrt z.norm) (z.argument / 2)

end ComplexFormula.ComplexFloat
