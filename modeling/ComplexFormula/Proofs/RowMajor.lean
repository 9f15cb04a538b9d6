import ComplexFormula.Proofs.Numbering
import ComplexFormula.Raster
import Mathlib.Algebra.Ring.Nat
import Mathlib.Data.List.Basic

/-!
Where the pixels of an image go, row by row. There is one entry for each pixel, in the order of the
rows, and it names the place of a pixel of the image or none. From its place each pixel is found
again, so no two pixels share one. An image with less than `2 ^ 59` pixels gets its map: in whatever
function nothing overflows, since places are words whenever the number of pixels is one. With more
pixels there is no room for the entries and no map.
-/

namespace ComplexFormula.Raster

variable {r : Raster} {p q : Nat × Nat}

/-! ### Pixels and their places -/

theorem lt_of_cell? {side n : Nat} {coordinate : Float} (h : cell? side coordinate = some n) :
    n < side := by
  unfold cell? at h
  split at h
  · cases h
  · split at h
    · cases h
      omega
    · cases h

/-- A pixel that a number falls into lies in the image. -/
theorem lt_of_pixel? {z : ComplexFloat} (h : r.pixel? z = some p) :
    p.1 < r.width ∧ p.2 < r.height := by
  unfold pixel? at h
  split at h
  · obtain ⟨column, hcolumn, h⟩ := Option.bind_eq_some_iff.1 h
    obtain ⟨row, hrow, h⟩ := Option.bind_eq_some_iff.1 h
    cases h
    exact ⟨lt_of_cell? hcolumn, lt_of_cell? hrow⟩
  · cases h

/-- The column and the row are the remainder and the quotient of the place. -/
theorem index_mod_div (hp : p.1 < r.width) :
    (r.index p % r.width, r.index p / r.width) = p := by
  have hwidth : 0 < r.width := Nat.zero_lt_of_lt hp
  rw [index, Nat.mul_comm, Nat.mul_add_mod, Nat.mod_eq_of_lt hp, Nat.mul_add_div hwidth,
    Nat.div_eq_of_lt hp, Nat.add_zero]

/-- The places in the image are the numbers below the number of its pixels. -/
theorem index_lt (hp : p.1 < r.width) (hrow : p.2 < r.height) :
    r.index p < r.width * r.height := by
  calc r.index p < p.2 * r.width + r.width := Nat.add_lt_add_left hp _
    _ = r.width * (p.2 + 1) := by rw [Nat.mul_succ, Nat.mul_comm]
    _ ≤ r.width * r.height := Nat.mul_le_mul_left _ hrow

/-! ### The entries in order -/

/-- Where each pixel goes under a function, row by row. -/
def remap (r : Raster) (f : ComplexFloat → ComplexFloat) : List (Option Nat) :=
  (List.range r.height).flatMap fun row =>
    (List.range r.width).map fun column => (r.pixel? (f (r.point column row))).map r.index

/-- Blocks of the same length stand one behind the other. -/
theorem getElem?_flatMap_range {α : Type} {length : Nat} {block : Nat → List α}
    (hblock : ∀ i, (block i).length = length) {count k : Nat} (hk : k < length * count) :
    ((List.range count).flatMap block)[k]? = (block (k / length))[k % length]? := by
  have hlength : 0 < length := Nat.pos_of_ne_zero fun h => by simp [h] at hk
  induction count with
  | zero => simp at hk
  | succ count ih =>
    have hfront : ((List.range count).flatMap block).length = length * count := by
      simp [List.length_flatMap, hblock, Nat.mul_comm]
    rw [List.range_succ, List.flatMap_append, List.flatMap_singleton]
    by_cases hlt : k < length * count
    · rw [List.getElem?_append_left (by omega), ih hlt]
    · -- the place is in the last block
      have hquotient : k / length = count := by
        rw [Nat.div_eq_iff hlength]
        rw [Nat.mul_succ] at hk
        have := Nat.mul_comm count length
        omega
      have hrest : k - length * count = k % length := by
        rw [← hquotient, Nat.mod_eq_sub_mul_div]
      rw [List.getElem?_append_right (by omega), hfront, hrest, hquotient]

theorem length_remap (r : Raster) (f : ComplexFloat → ComplexFloat) :
    (r.remap f).length = r.width * r.height := by
  simp [remap, List.length_flatMap, Nat.mul_comm]

/-- The entry at the place of a pixel is that of the pixel. -/
theorem getElem?_remap (f : ComplexFloat → ComplexFloat) {k : Nat} (hk : k < r.width * r.height) :
    (r.remap f)[k]? =
      some ((r.pixel? (f (r.point (k % r.width) (k / r.width)))).map r.index) := by
  have hwidth : 0 < r.width := Nat.pos_of_ne_zero fun h => by simp [h] at hk
  rw [remap, getElem?_flatMap_range (fun _ => by rw [List.length_map, List.length_range]) hk,
    List.getElem?_map, List.getElem?_range (Nat.mod_lt k hwidth)]
  rfl

/-! ### Words and room -/

theorem word?_of_lt {n : Nat} (h : n < 2 ^ 64) : word? n = some n :=
  if_pos h

theorem indexWord?_eq (hsize : r.width * r.height < 2 ^ 64) (hp : p.1 < r.width)
    (hrow : p.2 < r.height) : r.indexWord? p = some (r.index p) := by
  have hindex := Nat.lt_trans (index_lt hp hrow) hsize
  have hoffset : p.2 * r.width < 2 ^ 64 := Nat.lt_of_le_of_lt (Nat.le_add_right _ p.1) hindex
  rw [indexWord?, word?_of_lt hoffset]
  exact word?_of_lt hindex

/-- A pixel that a value falls into has a place that a word can hold. -/
theorem mapM_indexWord?_pixel? (hsize : r.width * r.height < 2 ^ 64) (z : ComplexFloat) :
    (r.pixel? z).mapM r.indexWord? = some ((r.pixel? z).map r.index) := by
  cases hpixel : r.pixel? z with
  | none => rfl
  | some p =>
    obtain ⟨hp, hrow⟩ := lt_of_pixel? hpixel
    simp [indexWord?_eq hsize hp hrow]

/-- There is room for less than `2 ^ 59` entries. -/
theorem room?_eq_some (h : r.width * r.height < 2 ^ 59) : r.room? = some #[] := by
  rw [room?, word?_of_lt (by omega), Option.bind_eq_bind, Option.bind_some, entryBytes, maxBytes,
    UInt64.size, if_pos (by omega)]
  rfl

/-- There is no room for more. -/
theorem room?_eq_none (h : 2 ^ 59 ≤ r.width * r.height) : r.room? = none := by
  rw [room?]
  by_cases hword : r.width * r.height < UInt64.size
  · rw [word?_of_lt hword, Option.bind_eq_bind, Option.bind_some, entryBytes, maxBytes,
      UInt64.size, if_neg (by omega)]
  · rw [word?, if_neg hword]
    rfl

/-- Pushing what each number below a bound gives, without failing, is appending what they give. -/
theorem forIn_range_push {γ : Type} {step : Nat → Array γ → Option (ForInStep (Array γ))}
    (entries : Nat → List γ)
    (hstep : ∀ i pushed, step i pushed = some (.yield (pushed ++ entries i)))
    (bound : Nat) (pushed : Array γ) :
    forIn [0:bound] pushed step = some (pushed ++ (List.range bound).flatMap entries) := by
  rw [Std.Legacy.Range.forIn_eq_forIn_range', List.range_eq_range']
  simp only [Std.Legacy.Range.size, Nat.sub_zero, Nat.add_sub_cancel, Nat.div_one]
  generalize List.range' 0 bound = is
  induction is generalizing pushed with
  | nil => simp
  | cons i is ih =>
    rw [List.forIn_cons, hstep, Option.bind_eq_bind, Option.bind_some]
    dsimp only
    rw [ih, List.flatMap_cons]
    simp [← Array.toList_inj]

/-- An image with less than `2 ^ 59` pixels gets the map of a function. -/
theorem remap?_eq_some (h : r.width * r.height < 2 ^ 59) (f : ComplexFloat → ComplexFloat) :
    r.remap? f = some (r.remap f).toArray := by
  have hsize : r.width * r.height < 2 ^ 64 := by omega
  have hrow (row : Nat) (pushed : Array (Option Nat)) :
      (forIn [0:r.width] pushed fun column indices => do
        let entry ← (r.pixel? (f (r.point column row))).mapM r.indexWord?
        pure (.yield (indices.push entry))) =
      some (pushed ++ (List.range r.width).map fun column =>
        (r.pixel? (f (r.point column row))).map r.index) := by
    rw [List.map_eq_flatMap]
    refine forIn_range_push _ (fun column pushed => ?_) _ pushed
    rw [mapM_indexWord?_pixel? hsize]
    simp
  have hrows : (forIn [0:r.height] #[] fun row pushed => do
        let indices ← forIn [0:r.width] pushed fun column indices => do
          let entry ← (r.pixel? (f (r.point column row))).mapM r.indexWord?
          pure (.yield (indices.push entry))
        pure (.yield indices)) =
      some (r.remap f).toArray := by
    have hempty : (r.remap f).toArray = (#[] : Array (Option Nat)) ++ r.remap f := by simp
    rw [hempty]
    refine forIn_range_push _ (fun row pushed => ?_) _ #[]
    rw [hrow]
    rfl
  rw [remap?, room?_eq_some h, Option.bind_eq_bind, Option.bind_some]
  exact congrArg (· >>= pure) hrows

/-- An image with more pixels gets none. -/
theorem remap?_eq_none (h : 2 ^ 59 ≤ r.width * r.height) (f : ComplexFloat → ComplexFloat) :
    r.remap? f = none := by
  rw [remap?, room?_eq_none h]
  rfl

/-- A map that an image gets is that of all its pixels. -/
theorem eq_of_remap? {f : ComplexFloat → ComplexFloat} {indices : Array (Option Nat)}
    (h : r.remap? f = some indices) : indices = (r.remap f).toArray := by
  rcases Nat.lt_or_ge (r.width * r.height) (2 ^ 59) with hroom | hroom
  · rw [remap?_eq_some hroom] at h
    exact (Option.some.inj h).symm
  · rw [remap?_eq_none hroom] at h
    cases h

/-! ### The map of an expression -/

/-- Whatever values an expression has, an image with less than `2 ^ 59` pixels gets a map. It holds
one entry for each pixel, the rows end to end. An entry names the place of the pixel that the value
falls into, and from there that pixel is found again. An image with more pixels gets no map. As long
as a word can hold the number of the pixels it can hold their places, and no two pixels of an image
have one place. -/
theorem remap_eq_rowMajor (r : Raster) (e : Expression) :
    (r.width * r.height < 2 ^ 59 → ∃ indices, r.remap? e.evaluate = some indices ∧
      indices.size = r.width * r.height ∧
      (∀ k < r.width * r.height, indices[k]? =
        some ((r.pixel? (e.evaluate (r.point (k % r.width) (k / r.width)))).map r.index)) ∧
      ∀ k i, indices[k]? = some (some i) → i < r.width * r.height ∧
        r.pixel? (e.evaluate (r.point (k % r.width) (k / r.width))) =
          some (i % r.width, i / r.width)) ∧
    (2 ^ 59 ≤ r.width * r.height → r.remap? e.evaluate = none) ∧
    (r.width * r.height < 2 ^ 64 → ∀ z p, r.pixel? z = some p →
      r.indexWord? p = some (r.index p)) ∧
    ∀ z z' p q, r.pixel? z = some p → r.pixel? z' = some q → r.index p = r.index q → p = q := by
  refine ⟨fun h => ⟨_, remap?_eq_some h e.evaluate, ?_, ?_, ?_⟩, fun h => remap?_eq_none h _,
    ?_, ?_⟩
  · rw [List.size_toArray, length_remap]
  · intro k hk
    rw [List.getElem?_toArray, getElem?_remap _ hk]
  · intro k i hentry
    rw [List.getElem?_toArray] at hentry
    have hk : k < r.width * r.height := by
      rw [← length_remap r e.evaluate]
      exact (List.getElem?_eq_some_iff.1 hentry).1
    rw [getElem?_remap _ hk] at hentry
    obtain ⟨p, hpixel, rfl⟩ := Option.map_eq_some_iff.1 (Option.some.inj hentry)
    obtain ⟨hp, hrow⟩ := lt_of_pixel? hpixel
    exact ⟨index_lt hp hrow, by rw [hpixel, index_mod_div hp]⟩
  · intro hsize z p hpixel
    exact indexWord?_eq hsize (lt_of_pixel? hpixel).1 (lt_of_pixel? hpixel).2
  · intro z z' p q hz hz' hindex
    rw [← index_mod_div (lt_of_pixel? hz).1, ← index_mod_div (lt_of_pixel? hz').1, hindex]

/-- Under `-1 * x` the pixels of the first column and of the first row fall off the image. -/
theorem remap_eq_rowMajor_reflection :
    let e := Expression.ofTree (.branch .mul (.leaf (.number .minusOne)) (.leaf .free))
    3 * 2 < 2 ^ 59 ∧
    (Raster.mk 3 2).remap? e.evaluate = some #[none, none, none, none, some 5, some 4] ∧
    (Raster.mk 3 2).pixel? (e.evaluate ((Raster.mk 3 2).point 1 1)) = some (2, 1) := by
  intro e
  have hsize : (Raster.mk 3 2).width * (Raster.mk 3 2).height < 2 ^ 59 := by decide
  have hmap : (Raster.mk 3 2).remap? e.evaluate =
      some #[none, none, none, none, some 5, some 4] := by
    decide +kernel
  obtain ⟨indices, hindices, -, -, hentry⟩ := (remap_eq_rowMajor ⟨3, 2⟩ e).1 hsize
  obtain rfl := Option.some.inj (hindices.symm.trans hmap)
  exact ⟨hsize, hmap, (hentry 4 5 rfl).2⟩

/-- A word can hold the number of `2 ^ 60` pixels, but not even of `x` do they get a map. -/
theorem no_map_of_wide : 2 ^ 60 * 1 < 2 ^ 64 ∧ ∃ e,
    (Formula.mk "x" 256).build = .ok e ∧ (Raster.mk (2 ^ 60) 1).remap? e.evaluate = none := by
  have htree : (Formula.mk "x" 256).tree = .ok (.leaf .free) := by decide +kernel
  exact ⟨by decide, _, Formula.build_of_tree htree, remap?_eq_none (by decide) _⟩

end ComplexFormula.Raster
