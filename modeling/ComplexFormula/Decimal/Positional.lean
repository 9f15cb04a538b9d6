import ComplexFormula.Decimal.Shortest

/-!
The decimal text of a float: its shortest digits in positional notation, never with an exponent
and without a point after a whole number.
-/

namespace ComplexFormula

namespace Decimal

/-- The digits with the point in its place and zeros in the places that they leave open. -/
def positional (d : Decimal) : String :=
  let digits := Nat.toDigits 10 d.digits
  if 0 ≤ d.exponent then
    String.ofList (digits ++ List.replicate d.exponent.toNat '0')
  else
    let places := (-d.exponent).toNat
    if digits.length ≤ places then
      "0." ++ String.ofList (List.replicate (places - digits.length) '0' ++ digits)
    else
      let whole := digits.length - places
      String.ofList (digits.take whole ++ '.' :: digits.drop whole)

/-- The text of a float. A zero shows its sign, and NaN has none. -/
def text (f : Float) : String :=
  if f.isNaN then "NaN"
  else
    let sign := if Binary64.hasSign f then "-" else ""
    match Binary64.ofFloat? f with
    | none => sign ++ "inf"
    | some b => sign ++ if b.significand = 0 then "0" else (shortest b).positional

end Decimal

end ComplexFormula
