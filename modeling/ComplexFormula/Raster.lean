import ComplexFormula.Binary64
import ComplexFormula.ComplexFloat.Basic

/-!
An image whose pixels are moved by a complex function. The origin of the plane lies in the middle of
the image, one unit is one pixel, and a value belongs to the pixel that it falls into. Where the
pixels go is kept in an array, which an image with too many of them does not get.
-/

namespace ComplexFormula

/-- The size of an image in pixels. -/
structure Raster where
  width : Nat
  height : Nat
  deriving DecidableEq, Repr

namespace Raster

/-- The distance of the middle from the edge of a side. -/
def middle (side : Nat) : Float :=
  Float.ofNat side / 2

/-- The number that stands at a pixel. -/
def point (r : Raster) (column row : Nat) : ComplexFloat :=
  ⟨Float.ofNat column - middle r.width, Float.ofNat row - middle r.height⟩

/-- The pixel of a side that a coordinate falls into. -/
def cell? (side : Nat) (coordinate : Float) : Option Nat :=
  match Binary64.ofFloat? (coordinate + middle side) with
  | none => none
  | some place => if 0 ≤ place.floor ∧ place.floor < side then some place.floor.toNat else none

/-- The column and row of the pixel that a number falls into, if it lies in the image. -/
def pixel? (r : Raster) (z : ComplexFloat) : Option (Nat × Nat) :=
  if z.isFinite then do
    let column ← cell? r.width z.re
    let row ← cell? r.height z.im
    some (column, row)
  else none

/-- The place of a pixel when the rows are laid end to end. -/
def index (r : Raster) (pixel : Nat × Nat) : Nat :=
  pixel.2 * r.width + pixel.1

/-! ### Words of 64 bits -/

/-- A number that a word can hold. -/
def word? (n : Nat) : Option Nat :=
  if n < UInt64.size then some n else none

/-- The most bytes that can be set aside at once. -/
def maxBytes : Nat :=
  UInt64.size / 2 - 1

/-- The bytes of an entry: a word for whether there is a place, and a word for the place. -/
def entryBytes : Nat :=
  16

/-- The place of a pixel, found with words. -/
def indexWord? (r : Raster) (pixel : Nat × Nat) : Option Nat := do
  let offset ← word? (pixel.2 * r.width)
  word? (offset + pixel.1)

/-- An empty array with room for an entry for each pixel. There is none if a word cannot hold the
number of the pixels, or if the entries are more bytes than can be set aside. -/
def room? (r : Raster) : Option (Array (Option Nat)) := do
  let count ← word? (r.width * r.height)
  if entryBytes * count ≤ maxBytes then some (.emptyWithCapacity count) else none

/-- Where each pixel goes under a function, in an array that has room for all entries before the
first one is found. The entries are pushed one by one, row by row and in each row column by
column. -/
def remap? (r : Raster) (f : ComplexFloat → ComplexFloat) : Option (Array (Option Nat)) := do
  let mut indices ← r.room?
  for row in [0:r.height] do
    for column in [0:r.width] do
      let entry ← (r.pixel? (f (r.point column row))).mapM r.indexWord?
      indices := indices.push entry
  return indices

end Raster

end ComplexFormula
