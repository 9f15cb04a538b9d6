import ComplexFormula.ComplexFloat.Basic

/-!
The polar form of a complex float and the powers that are defined through it.
-/

namespace ComplexFormula

/-- The long side of a right triangle with `short` below `long`, both positive and their squares in
range. The square root is corrected once by the error that its square leaves. -/
def hypotenuseInRange (long short : Float) : Float :=
  let h := Float.sqrt (long * long + short * short)
  let error :=
    if h ≤ 2 * short then
      let d := h - short
      long * (2 * d - long) + (d - 2 * (long - short)) * d
    else
      let d := h - long
      2 * d * (long - 2 * short) + ((4 * d - short) * short + d * d)
  h - error / (2 * h)

/-- The power of two by which sides are scaled whose squares would leave the range. -/
def farScale : Float := Float.ofNat (Nat.pow 2 600)

/-- The square root of `a² + b²`, where no square leaves the range on the way. An infinite side
makes it infinite, even beside NaN, and a side too short to show is only added. For that the short
side is scaled up and not the long one down, since no place is lost on the way up. -/
def hypotenuse (a b : Float) : Float :=
  if a.isInf || b.isInf then 1 / 0
  else if a.isNaN || b.isNaN then 0 / 0
  else
    let long := if a.abs < b.abs then b.abs else a.abs
    let short := if a.abs < b.abs then a.abs else b.abs
    if short * Float.ofNat (Nat.pow 2 54) ≤ long then long + short
    else if Float.ofNat (Nat.pow 2 511) < long then
      hypotenuseInRange (long / farScale) (short / farScale) * farScale
    else if short < 1 / Float.ofNat (Nat.pow 2 459) then
      hypotenuseInRange (long * farScale) (short * farScale) / farScale
    else hypotenuseInRange long short

namespace ComplexFloat

/-- The modulus. -/
def norm (z : ComplexFloat) : Float :=
  hypotenuse z.re z.im

/-- The angle from the positive real axis, from `-π` to `π`. -/
def argument (z : ComplexFloat) : Float :=
  Float.atan2 z.im z.re

/-- The number of modulus `r` and angle `t`. -/
def ofPolar (r t : Float) : ComplexFloat :=
  ⟨r * Float.cos t, r * Float.sin t⟩

/-- The logarithm whose imaginary part is the argument. -/
def ln (z : ComplexFloat) : ComplexFloat :=
  ⟨Float.log z.norm, z.argument⟩

/-- The power with a real exponent: the modulus is raised and the angle multiplied. -/
def realPow (z : ComplexFloat) (n : Float) : ComplexFloat :=
  ofPolar (Float.pow z.norm n) (z.argument * n)

/-- The power `exp (w * ln z)`; an exponent on the real axis takes the real power. -/
def pow (z w : ComplexFloat) : ComplexFloat :=
  if w.im == 0 then z.realPow w.re
  else
    let e := w * z.ln
    ofPolar (Float.exp e.re) e.im

end ComplexFloat

end ComplexFormula
