import ComplexFormula.Binary64

/-!
The shortest decimal of a binary float. Of the decimals that round back to the float it has the
fewest digits, and of those it is the nearest; of two equally near the greater is taken. Everything
is compared as whole numbers over a common denominator.
-/

namespace ComplexFormula

/-- The number `digits * 10 ^ exponent`. -/
structure Decimal where
  digits : Nat
  exponent : Int
  deriving DecidableEq, Repr

namespace Decimal

/-- The reals that round to one float: those between `low` and `high`, counted in parts of which
`unit` make one. The two ends belong to the cell if it is `closed`. -/
structure Cell where
  low : Nat
  value : Nat
  high : Nat
  unit : Nat
  closed : Bool

namespace Cell

/-- The cell of a positive float reaches half way to each neighbour. The neighbour below a power of
two is only half as far away, and an end rounds to the float whose significand is even. -/
def ofBinary64 (b : Binary64) : Cell :=
  let scale := Nat.pow 2 (b.exponent - 2).toNat
  let quarters := 4 * b.significand
  let below := if b.significand = Nat.pow 2 52 ∧ -1074 < b.exponent then 1 else 2
  { low := (quarters - below) * scale
    value := quarters * scale
    high := (quarters + 2) * scale
    unit := Nat.pow 2 (2 - b.exponent).toNat
    closed := b.significand % 2 = 0 }

/-- The same cell with `10 ^ place` as its one. -/
def measuredIn (c : Cell) (place : Int) : Cell :=
  let finer := Nat.pow 10 (-place).toNat
  { low := c.low * finer
    value := c.value * finer
    high := c.high * finer
    unit := c.unit * Nat.pow 10 place.toNat
    closed := c.closed }

/-- Whether the whole number `n` lies in the cell. -/
def holds (c : Cell) (n : Nat) : Bool :=
  if c.closed then c.low ≤ n * c.unit && n * c.unit ≤ c.high
  else c.low < n * c.unit && n * c.unit < c.high

/-- The whole number in the cell that is nearest to its value, the greater of two equally near. -/
def nearest? (c : Cell) : Option Nat :=
  let below := c.value / c.unit
  let above := below + 1
  match c.holds below, c.holds above with
  | true, true => some (if 2 * c.value < (below + above) * c.unit then below else above)
  | true, false => some below
  | false, true => some above
  | false, false => none

end Cell

/-- The first hit on the grids `10 ^ place`, `10 ^ (place - 1)`, and so on; on the last of them the
value is cut off. -/
def search (c : Cell) : Nat → Int → Decimal
  | 0, place => ⟨(c.measuredIn place).value / (c.measuredIn place).unit, place⟩
  | grids + 1, place =>
    match (c.measuredIn place).nearest? with
    | some n => ⟨n, place⟩
    | none => search c grids (place - 1)

/-- A power of ten above the float, by `log 2 = 0.30103` and a spare place. -/
def placeAbove (b : Binary64) : Int :=
  (b.significand.log2 + b.exponent + 1) * 30103 / 100000 + 1

/-- The shortest decimal of a positive float. Seventeen digits always suffice, so that twenty grids
below one that is too coarse reach a hit. -/
def shortest (b : Binary64) : Decimal :=
  search (Cell.ofBinary64 b) 20 (placeAbove b)

end Decimal

end ComplexFormula
