/-!
The exact value of a 64-bit float: a sign, a whole significand and a power of two, read off its
bits. On these fields the floor of a float and its decimal text are questions about whole numbers.
-/

namespace ComplexFormula

/-- The number `significand * 2 ^ exponent`, below zero if `negative`; a zero keeps its sign. -/
structure Binary64 where
  negative : Bool
  significand : Nat
  exponent : Int
  deriving DecidableEq, Repr

namespace Binary64

/-- Whether the sign bit of a float is set, as it is on `-0`. NaN is a single value here, without a
sign or a payload of its own, and its sign bit reads as clear. -/
def hasSign (f : Float) : Bool :=
  f.toBits >>> 63 == 1

/-- The exact value of a float, `none` for an infinity and for NaN. The exponent field 0 marks the
numbers below the least normal one, which have no leading bit of their own. -/
def ofFloat? (f : Float) : Option Binary64 :=
  let bits := f.toBits.toNat
  let fraction : Nat := bits % Nat.pow 2 52
  let field : Nat := bits / Nat.pow 2 52 % Nat.pow 2 11
  if field = 2047 then none
  else if field = 0 then some ⟨hasSign f, fraction, -1074⟩
  else some ⟨hasSign f, Nat.pow 2 52 + fraction, (field : Int) - 1075⟩

/-- The significand with its sign. -/
def signed (b : Binary64) : Int :=
  if b.negative then -(b.significand : Int) else b.significand

/-- The greatest whole number that is not above the value. -/
def floor (b : Binary64) : Int :=
  if 0 ≤ b.exponent then b.signed * Nat.pow 2 b.exponent.toNat
  else b.signed / Nat.pow 2 (-b.exponent).toNat

end Binary64

end ComplexFormula
