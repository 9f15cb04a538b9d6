/-!
Complex numbers with float components and the four operations of arithmetic. Every step is a
separately rounded float operation, and a zero divisor gives infinite or NaN components.
-/

namespace ComplexFormula

/-- The number `re + im * i`. -/
structure ComplexFloat where
  re : Float
  im : Float
  deriving DecidableEq, Repr

namespace ComplexFloat

/-- The number `0 + 0 i`. -/
def zero : ComplexFloat := ⟨0, 0⟩

/-- The imaginary unit `0 + 1 i`. -/
def imaginaryUnit : ComplexFloat := ⟨0, 1⟩

/-- The factor `-1 + 0 i` that a sign in front of an operand stands for. -/
def minusOne : ComplexFloat := ⟨-1, 0⟩

instance : Inhabited ComplexFloat := ⟨zero⟩

/-- Numbers are compared as floats are: NaN is unlike itself, and the two zeros are alike. -/
instance : BEq ComplexFloat where
  beq a b := a.re == b.re && a.im == b.im

instance : Add ComplexFloat where
  add a b := ⟨a.re + b.re, a.im + b.im⟩

instance : Sub ComplexFloat where
  sub a b := ⟨a.re - b.re, a.im - b.im⟩

instance : Mul ComplexFloat where
  mul a b := ⟨a.re * b.re - a.im * b.im, a.re * b.im + a.im * b.re⟩

/-- The quotient multiplies by the conjugate of the divisor and divides by its squared modulus. -/
instance : Div ComplexFloat where
  div a b :=
    let n := b.re * b.re + b.im * b.im
    ⟨(a.re * b.re + a.im * b.im) / n, (a.im * b.re - a.re * b.im) / n⟩

/-- Whether neither component is infinite or NaN. -/
def isFinite (z : ComplexFloat) : Bool :=
  z.re.isFinite && z.im.isFinite

end ComplexFloat

end ComplexFormula
