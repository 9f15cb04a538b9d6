import ComplexFormula.Glyph
import Mathlib.Algebra.Ring.Nat
import Mathlib.Data.List.Basic
import Mathlib.Data.List.Nodup

/-!
Where the glyphs of a text stand. They are the characters of the text that are not blank, in lower
case and in order, each with the byte offsets at which it begins and ends.
-/

namespace ComplexFormula

theorem glyphsFrom_append (start : Nat) (us vs : List Char) : glyphsFrom start (us ++ vs) =
    glyphsFrom start us ++ glyphsFrom (start + (us.map Char.utf8Size).sum) vs := by
  induction us generalizing start with
  | nil => rfl
  | cons c us ih =>
    simp only [List.cons_append, glyphsFrom, ih, List.map_cons, List.sum_cons, Nat.add_assoc]
    split <;> rfl

/-- The characters that count do not depend on where they stand. -/
theorem items_glyphsFrom (start : Nat) (cs : List Char) : (glyphsFrom start cs).map (·.item) =
    (cs.filter fun c => !Text.isBlank c).map Char.toLower := by
  induction cs generalizing start with
  | nil => rfl
  | cons c cs ih =>
    rw [glyphsFrom]
    cases hblank : Text.isBlank c <;> simp [hblank, ih]

theorem mem_glyphsFrom_cons {start : Nat} {c : Char} {cs : List Char} {g : Glyph} :
    g ∈ glyphsFrom start (c :: cs) ↔
      Text.isBlank c = false ∧ g = ⟨c.toLower, start, start + c.utf8Size⟩ ∨
        g ∈ glyphsFrom (start + c.utf8Size) cs := by
  rw [glyphsFrom]
  cases hblank : Text.isBlank c <;> simp

theorem le_start_of_mem_glyphsFrom {start : Nat} {cs : List Char} {g : Glyph}
    (h : g ∈ glyphsFrom start cs) : start ≤ g.start := by
  induction cs generalizing start with
  | nil => cases h
  | cons c cs ih =>
    rcases mem_glyphsFrom_cons.1 h with ⟨-, rfl⟩ | h
    · exact Nat.le_refl _
    · exact Nat.le_trans (Nat.le_add_right _ _) (ih h)

/-- Each glyph ends where the next one begins or before. -/
theorem pairwise_stop_glyphsFrom (start : Nat) (cs : List Char) :
    (glyphsFrom start cs).Pairwise (·.stop ≤ ·.start) := by
  induction cs generalizing start with
  | nil => exact .nil
  | cons c cs ih =>
    rw [glyphsFrom]
    split
    · exact ih _
    · exact .cons (fun g hg => le_start_of_mem_glyphsFrom hg) (ih _)

/-- The glyph with the number `i` is the character behind `i` others that are not blank. -/
theorem exists_of_getElem?_glyphsFrom {start i : Nat} {cs : List Char} {g : Glyph}
    (h : (glyphsFrom start cs)[i]? = some g) : ∃ before c after, cs = before ++ c :: after ∧
      Text.isBlank c = false ∧ before.countP (fun c => !Text.isBlank c) = i ∧
      g = ⟨c.toLower, start + (before.map Char.utf8Size).sum,
        start + (before.map Char.utf8Size).sum + c.utf8Size⟩ := by
  induction cs generalizing start i with
  | nil => simp [glyphsFrom] at h
  | cons c cs ih =>
    rw [glyphsFrom] at h
    cases hblank : Text.isBlank c with
    | true =>
      obtain ⟨before, d, after, rfl, hd, rfl, rfl⟩ := ih (by simpa [hblank] using h)
      exact ⟨c :: before, d, after, rfl, hd, by simp [hblank], by simp [Nat.add_assoc]⟩
    | false =>
      cases i with
      | zero =>
        obtain rfl : _ = g := by simpa [hblank] using h
        exact ⟨[], c, cs, rfl, hblank, rfl, rfl⟩
      | succ i =>
        obtain ⟨before, d, after, rfl, hd, rfl, rfl⟩ := ih (by simpa [hblank] using h)
        exact ⟨c :: before, d, after, rfl, hd, by simp [hblank], by simp [Nat.add_assoc]⟩

theorem mem_glyphsFrom_iff {start : Nat} {cs : List Char} {g : Glyph} : g ∈ glyphsFrom start cs ↔
    ∃ before c after, cs = before ++ c :: after ∧ Text.isBlank c = false ∧
      g = ⟨c.toLower, start + (before.map Char.utf8Size).sum,
        start + (before.map Char.utf8Size).sum + c.utf8Size⟩ := by
  constructor
  · intro h
    obtain ⟨i, hi⟩ := List.mem_iff_getElem?.1 h
    obtain ⟨before, c, after, hcs, hblank, -, hg⟩ := exists_of_getElem?_glyphsFrom hi
    exact ⟨before, c, after, hcs, hblank, hg⟩
  · rintro ⟨before, c, after, rfl, hblank, rfl⟩
    rw [glyphsFrom_append]
    exact List.mem_append_right _ (mem_glyphsFrom_cons.2 (.inl ⟨hblank, rfl⟩))

/-- No glyph is empty. -/
theorem start_lt_stop_of_mem_glyphsFrom {start : Nat} {cs : List Char} {g : Glyph}
    (h : g ∈ glyphsFrom start cs) : g.start < g.stop := by
  obtain ⟨before, c, after, -, -, rfl⟩ := mem_glyphsFrom_iff.1 h
  exact Nat.lt_add_of_pos_right c.utf8Size_pos

theorem pairwise_glyphsFrom (start : Nat) (cs : List Char) :
    (glyphsFrom start cs).Pairwise (·.start < ·.start) := by
  refine (pairwise_stop_glyphsFrom start cs).imp_of_mem ?_
  intro g g' hg _ hle
  exact Nat.lt_of_lt_of_le (start_lt_stop_of_mem_glyphsFrom hg) hle

/-- No two glyphs start at the same offset. -/
theorem eq_of_start_eq {start : Nat} {cs : List Char} {g g' : Glyph} (hg : g ∈ glyphsFrom start cs)
    (hg' : g' ∈ glyphsFrom start cs) (hstart : g.start = g'.start) : g = g' := by
  have hnodup : ((glyphsFrom start cs).map (·.start)).Nodup :=
    List.pairwise_map.2 ((pairwise_glyphsFrom start cs).imp Nat.ne_of_lt)
  exact List.inj_on_of_nodup_map hnodup hg hg' hstart

/-- If each place is that of a glyph with a property, then the first character has it if it stands
at a place, and the other places are those of glyphs behind it. -/
theorem places_cons {isPlace : Nat → Bool} {P : Glyph → Prop} {start : Nat} {c : Char}
    {cs : List Char} (hplaces : ∀ o, start ≤ o → isPlace o = true →
      ∃ g ∈ glyphsFrom start (c :: cs), g.start = o ∧ P g) :
    (isPlace start = true → Text.isBlank c = false ∧ P ⟨c.toLower, start, start + c.utf8Size⟩) ∧
      ∀ o, start + c.utf8Size ≤ o → isPlace o = true →
        ∃ g ∈ glyphsFrom (start + c.utf8Size) cs, g.start = o ∧ P g := by
  have hsize := c.utf8Size_pos
  constructor
  · intro hplace
    obtain ⟨g, hg, hstart, hP⟩ := hplaces start (Nat.le_refl _) hplace
    rcases mem_glyphsFrom_cons.1 hg with ⟨hblank, rfl⟩ | hg
    · exact ⟨hblank, hP⟩
    · have := le_start_of_mem_glyphsFrom hg
      omega
  · intro o ho hplace
    obtain ⟨g, hg, rfl, hP⟩ := hplaces o (by omega) hplace
    rcases mem_glyphsFrom_cons.1 hg with ⟨-, rfl⟩ | hg
    · simp only at ho
      omega
    · exact ⟨g, hg, rfl, hP⟩

/-! ### Byte offsets -/

namespace Text

theorem utf8ByteSize_ofList (cs : List Char) :
    (String.ofList cs).utf8ByteSize = (cs.map Char.utf8Size).sum := by
  induction cs with
  | nil => simp
  | cons c cs ih => simp [String.ofList_cons, ih]

/-- The character stands at a byte offset of the text. -/
def At (text : String) (p : Nat) (c : Char) : Prop :=
  ∃ before after, text = before ++ String.singleton c ++ after ∧ before.utf8ByteSize = p

variable {text : String} {p : Nat} {c : Char}

theorem at_iff : At text p c ↔ ∃ before after, text.toList = before ++ c :: after ∧
    (before.map Char.utf8Size).sum = p := by
  constructor
  · rintro ⟨before, after, rfl, rfl⟩
    refine ⟨before.toList, after.toList, by simp, ?_⟩
    rw [← utf8ByteSize_ofList, String.ofList_toList]
  · rintro ⟨before, after, htext, rfl⟩
    refine ⟨String.ofList before, String.ofList after, ?_, utf8ByteSize_ofList before⟩
    rw [← String.toList_inj, htext]
    simp

/-- A character begins and ends at a boundary between characters. -/
theorem At.isValid (h : At text p c) : String.Pos.Raw.IsValid text ⟨p⟩ ∧
    String.Pos.Raw.IsValid text ⟨p + c.utf8Size⟩ := by
  obtain ⟨before, after, rfl, rfl⟩ := h
  refine ⟨?_, ?_⟩
  · rw [String.append_assoc]
    exact String.Pos.Raw.isValid_rawEndPos.append_right _
  · have hend : (before ++ String.singleton c).rawEndPos = ⟨before.utf8ByteSize + c.utf8Size⟩ := by
      simp [String.Pos.Raw.ext_iff]
    rw [← hend]
    exact String.Pos.Raw.isValid_rawEndPos.append_right _

/-- Nothing but a `-` is a `-` in lower case. -/
theorem eq_minus_of_toLower {c : Char} (h : c.toLower = '-') : c = '-' := by
  unfold Char.toLower at h
  split at h
  · next hupper =>
    -- a capital letter becomes a small one
    have hval : (c.val.toNat + 32) % 2 ^ 32 = 45 := congrArg (·.val.toNat) h
    have hlow : 65 ≤ c.val.toNat := hupper.1
    have hhigh : c.val.toNat ≤ 90 := hupper.2
    omega
  · exact h

end Text

/-- The glyphs of a text are its characters that are not blank. -/
theorem mem_glyphs_iff {text : String} {g : Glyph} : g ∈ glyphs text ↔
    ∃ p c, Text.At text p c ∧ Text.isBlank c = false ∧ g = ⟨c.toLower, p, p + c.utf8Size⟩ := by
  simp only [glyphs, mem_glyphsFrom_iff, Text.at_iff, Nat.zero_add]
  constructor
  · rintro ⟨before, c, after, htext, hblank, rfl⟩
    exact ⟨_, c, ⟨before, after, htext, rfl⟩, hblank, rfl⟩
  · rintro ⟨_, c, ⟨before, after, htext, rfl⟩, hblank, rfl⟩
    exact ⟨before, c, after, htext, hblank, rfl⟩

end ComplexFormula
