import ComplexFormula.Proofs.Binary64.Exactness
import ComplexFormula.Proofs.Negation
import ComplexFormula.Proofs.RowMajor

/-!
The origin of the plane lies in the middle of the image, between two pixels if a side is even. Up to
sides of 53 bits nothing is rounded on the way from a pixel into the plane and back, so `x` leaves
all pixels where they are, and `-x` turns the image about its middle. What stands for a pixel is its
corner: the first column and the first row are turned to the far edge, which is off the image.
-/

namespace ComplexFormula.Raster

open Binary64

variable {r : Raster} {z : ComplexFloat} {side place : ℕ} {m n : ℤ} {p q : ℚ}

/-! ### Coordinates -/

theorem denotes_middle (hside : side ≤ 2 ^ 53) : Denotes (middle side) (side / 2) := by
  refine (denotes_ofNat hside).div (denotes_ofNat (by norm_num)) two_ne_zero ?_
  exact representable_half (n := side) (by rw [Nat.abs_cast]; omega)

/-- From a pixel into the plane. -/
theorem denotes_coordinate (hside : side ≤ 2 ^ 53) (hplace : place < side) :
    Denotes (Float.ofNat place - middle side) (place - side / 2) := by
  refine (denotes_ofNat (by omega)).sub (denotes_middle hside) ?_
  have hhalf : (place - side / 2 : ℚ) = ((2 * place - side : ℤ) : ℚ) / 2 := by
    push_cast
    ring
  rw [hhalf]
  exact representable_half (abs_le.2 ⟨by omega, by omega⟩)

/-- And back. -/
theorem cell?_of_denotes {coordinate : Float} (hside : side ≤ 2 ^ 53) (hn : |n| ≤ 2 ^ 53)
    (h : Denotes coordinate (n - side / 2)) :
    cell? side coordinate = if 0 ≤ n ∧ n < side then some n.toNat else none := by
  have hplace : Denotes (coordinate + middle side) n := by
    have hsum := h.add (denotes_middle hside)
    rw [sub_add_cancel] at hsum
    exact hsum (representable_int hn)
  obtain ⟨b, hb, hfloor⟩ := hplace.floor
  rw [Int.floor_intCast] at hfloor
  rw [cell?, hb]
  simp only [hfloor]

theorem pixel?_of_denotes (hwidth : r.width ≤ 2 ^ 53) (hheight : r.height ≤ 2 ^ 53)
    (hm : |m| ≤ 2 ^ 53) (hn : |n| ≤ 2 ^ 53) (hre : Denotes z.re (m - r.width / 2))
    (him : Denotes z.im (n - r.height / 2)) : r.pixel? z =
      if (0 ≤ m ∧ m < r.width) ∧ (0 ≤ n ∧ n < r.height) then some (m.toNat, n.toNat) else none := by
  have hfinite : z.isFinite = true := by
    rw [ComplexFloat.isFinite, hre.isFinite, him.isFinite]
    rfl
  rw [pixel?, if_pos hfinite, cell?_of_denotes hwidth hm hre, cell?_of_denotes hheight hn him]
  split
  next hcolumn =>
    split
    next hrow => exact (if_pos ⟨hcolumn, hrow⟩).symm
    next hrow => exact (if_neg fun h => hrow h.2).symm
  next hcolumn => exact (if_neg fun h => hcolumn h.1).symm

/-! ### The two maps -/

variable {column row : ℕ}

/-- A pixel is where its number falls. -/
theorem pixel?_point (hwidth : r.width ≤ 2 ^ 53) (hheight : r.height ≤ 2 ^ 53)
    (hcolumn : column < r.width) (hrow : row < r.height) :
    r.pixel? (r.point column row) = some (column, row) := by
  have h := pixel?_of_denotes (z := r.point column row) (m := column) (n := row) hwidth hheight
    (by rw [Nat.abs_cast]; omega) (by rw [Nat.abs_cast]; omega)
    (denotes_coordinate hwidth hcolumn) (denotes_coordinate hheight hrow)
  rw [h, if_pos ⟨⟨by omega, by omega⟩, by omega, by omega⟩]
  rfl

/-- Turning about the origin is exact, and so is the zero that the other component adds. -/
theorem denotes_minusOne_mul (hre : Denotes z.re p) (him : Denotes z.im q) :
    Denotes (ComplexFloat.minusOne * z).re (-p) ∧ Denotes (ComplexFloat.minusOne * z).im (-q) := by
  have hone : Denotes (-1) (-1) := (denotes_ofNat (n := 1) (by norm_num)).neg
  have hneg {f : Float} {p : ℚ} (h : Denotes f p) : Denotes (-1 * f) (-p) := by
    rw [← neg_one_mul]
    refine hone.mul h ?_
    rw [neg_one_mul]
    exact representable_of_hasValue (HasValue.neg h)
  have hnone : Denotes 0 0 := Nat.cast_zero (R := ℚ) ▸ denotes_ofNat (Nat.zero_le _)
  have hzero {f : Float} {p : ℚ} (h : Denotes f p) : Denotes (0 * f) 0 := by
    rw [← zero_mul p]
    refine hnone.mul h ?_
    rw [zero_mul]
    exact representable_of_hasValue hnone
  constructor
  · have hsub := (hneg hre).sub (hzero him)
    rw [sub_zero] at hsub
    exact hsub (representable_of_hasValue (hneg hre))
  · have hadd := (hneg him).add (hzero hre)
    rw [add_zero] at hadd
    exact hadd (representable_of_hasValue (hneg him))

/-- Under `-x` a pixel goes as far behind the middle as it is before it. -/
theorem pixel?_minusOne_mul_point (hwidth : r.width ≤ 2 ^ 53) (hheight : r.height ≤ 2 ^ 53)
    (hcolumn : column < r.width) (hrow : row < r.height) :
    r.pixel? (ComplexFloat.minusOne * r.point column row) =
      if 1 ≤ column ∧ 1 ≤ row then some (r.width - column, r.height - row) else none := by
  obtain ⟨hre, him⟩ := denotes_minusOne_mul (z := r.point column row)
    (denotes_coordinate hwidth hcolumn) (denotes_coordinate hheight hrow)
  have hopposite (place side : ℕ) :
      -((place : ℚ) - side / 2) = (((side : ℤ) - place : ℤ) : ℚ) - side / 2 := by
    push_cast
    ring
  rw [hopposite] at hre him
  rw [pixel?_of_denotes hwidth hheight (abs_le.2 ⟨by omega, by omega⟩)
    (abs_le.2 ⟨by omega, by omega⟩) hre him]
  split
  next h =>
    rw [if_pos (by omega)]
    congr 2 <;> omega
  next h => rw [if_neg (by omega)]

variable {f : ComplexFloat → ComplexFloat}

/-- The entries of a map, told pixel by pixel. -/
theorem getElem?_remap_index (hcolumn : column < r.width) (hrow : row < r.height) :
    (r.remap f)[r.index (column, row)]? =
      some ((r.pixel? (f (r.point column row))).map r.index) := by
  obtain ⟨hmod, hdiv⟩ := Prod.mk.inj (index_mod_div (p := (column, row)) hcolumn)
  rw [getElem?_remap f (index_lt (p := (column, row)) hcolumn hrow), hmod, hdiv]

theorem remap_of_pixel?_point (h : ∀ column < r.width, ∀ row < r.height,
    r.pixel? (f (r.point column row)) = some (column, row)) :
    r.remap f = (List.range (r.width * r.height)).map some := by
  refine List.ext_getElem? fun k => ?_
  rcases Nat.lt_or_ge k (r.width * r.height) with hk | hk
  · have hwidth : 0 < r.width := Nat.pos_of_ne_zero fun h => by simp [h] at hk
    have hrow : k / r.width < r.height := Nat.div_lt_of_lt_mul hk
    rw [getElem?_remap f hk, h _ (Nat.mod_lt k hwidth) _ hrow, List.getElem?_map,
      List.getElem?_range hk]
    exact congrArg (some ∘ some) (Nat.div_add_mod' k r.width)
  · rw [List.getElem?_eq_none (by rwa [length_remap]), List.getElem?_eq_none (by simpa using hk)]

/-- In sides of at most 53 bits each pixel is found again from its number, and `-x` takes it as far
behind the middle as it is before it. So in an image with less than `2 ^ 59` pixels the map of `x`
leaves all pixels where they are, and that of `-x` turns them about the middle, except those of the
first column and of the first row, which are turned out of the image. For an image with more pixels
there is neither map. -/
theorem remap_free_and_negation (hwidth : r.width ≤ 2 ^ 53) (hheight : r.height ≤ 2 ^ 53) :
    (∀ column < r.width, ∀ row < r.height,
      r.pixel? (r.point column row) = some (column, row)) ∧
    ∀ limit, ∃ free negation, (Formula.mk "x" limit).build = .ok free ∧
      (Formula.mk "-x" limit).build = .ok negation ∧
      (∀ column < r.width, ∀ row < r.height,
        r.pixel? (negation.evaluate (r.point column row)) =
          if 1 ≤ column ∧ 1 ≤ row then some (r.width - column, r.height - row) else none) ∧
      (r.width * r.height < 2 ^ 59 →
        r.remap? free.evaluate = some ((Array.range (r.width * r.height)).map some) ∧
        ∃ indices, r.remap? negation.evaluate = some indices ∧
          indices.size = r.width * r.height ∧
          ∀ column < r.width, ∀ row < r.height, indices[r.index (column, row)]? =
            some (if 1 ≤ column ∧ 1 ≤ row then some (r.index (r.width - column, r.height - row))
              else none)) ∧
      (2 ^ 59 ≤ r.width * r.height →
        r.remap? free.evaluate = none ∧ r.remap? negation.evaluate = none) := by
  have hfree : (Formula.mk "x" 0).tree = .ok (.leaf .free) := by decide +kernel
  have hnegation : (Formula.mk "-x" 0).tree = .ok (Tree.leaf .free).negation := by decide +kernel
  have hpoint (column : ℕ) (hcolumn : column < r.width) (row : ℕ) (hrow : row < r.height) :=
    pixel?_point hwidth hheight hcolumn hrow
  have hturned (column : ℕ) (hcolumn : column < r.width) (row : ℕ) (hrow : row < r.height) :
      r.pixel? ((Expression.ofTree (Tree.leaf Atom.free).negation).evaluate (r.point column row)) =
        if 1 ≤ column ∧ 1 ≤ row then some (r.width - column, r.height - row) else none := by
    rw [Expression.evaluate_ofTree]
    exact pixel?_minusOne_mul_point hwidth hheight hcolumn hrow
  refine ⟨hpoint, fun limit => ⟨.ofTree (.leaf .free), .ofTree (Tree.leaf .free).negation, ?_, ?_,
    ?_, fun hroom => ⟨?_, ?_⟩, fun hroom => ?_⟩⟩
  · exact Formula.build_of_tree (Formula.tree_of_le hfree limit.zero_le)
  · exact Formula.build_of_tree (Formula.tree_of_le hnegation limit.zero_le)
  · exact hturned
  · rw [remap?_eq_some hroom, remap_of_pixel?_point]
    · simp [← Array.toList_inj]
    · simp only [Expression.evaluate_ofTree]
      exact hpoint
  · refine ⟨_, remap?_eq_some hroom _, ?_, ?_⟩
    · rw [List.size_toArray, length_remap]
    · intro column hcolumn row hrow
      rw [List.getElem?_toArray, getElem?_remap_index hcolumn hrow, hturned column hcolumn row hrow]
      split <;> rfl
  · exact ⟨remap?_eq_none hroom _, remap?_eq_none hroom _⟩

/-- In an image of odd sides the pixel in the middle is turned to the one behind it. -/
theorem remap_free_and_negation_odd :
    (Raster.mk 5 3).pixel? ((Raster.mk 5 3).point 4 2) = some (4, 2) ∧
    ∃ free negation indices, (Formula.mk "x" 7).build = .ok free ∧
      (Formula.mk "-x" 7).build = .ok negation ∧
      (Raster.mk 5 3).remap? free.evaluate = some ((Array.range 15).map some) ∧
      (Raster.mk 5 3).remap? negation.evaluate = some indices ∧
      indices[7]? = some (some 13) ∧ indices[5]? = some none := by
  obtain ⟨hpoint, hmaps⟩ := remap_free_and_negation (r := ⟨5, 3⟩) (by decide) (by decide)
  obtain ⟨free, negation, hfree, hnegation, -, hroom, -⟩ := hmaps 7
  obtain ⟨hidentity, indices, hindices, -, hturned⟩ := hroom (by decide)
  exact ⟨hpoint 4 (by decide) 2 (by decide), free, negation, indices, hfree, hnegation, hidentity,
    hindices, hturned 2 (by decide) 1 (by decide), hturned 0 (by decide) 1 (by decide)⟩

/-- A word can hold the number of pixels in `2 ^ 53` columns and `64` rows, but there is no map of
them, not even that of `x`. -/
theorem no_map_of_long : 2 ^ 53 * 64 < 2 ^ 64 ∧ ∃ free negation,
    (Formula.mk "x" 256).build = .ok free ∧ (Formula.mk "-x" 256).build = .ok negation ∧
      (Raster.mk (2 ^ 53) 64).remap? free.evaluate = none ∧
      (Raster.mk (2 ^ 53) 64).remap? negation.evaluate = none := by
  have hfree : (Formula.mk "x" 256).tree = .ok (.leaf .free) := by decide +kernel
  have hnegation : (Formula.mk "-x" 256).tree = .ok (Tree.leaf .free).negation := by decide +kernel
  exact ⟨by decide, _, _, Formula.build_of_tree hfree, Formula.build_of_tree hnegation,
    remap?_eq_none (by decide) _, remap?_eq_none (by decide) _⟩

end ComplexFormula.Raster
