import ComplexFormula.Proofs.Offsets

/-!
Characters put into a text in place of those at some byte offsets. The glyphs of both texts go
together one by one, but at the places, where some glyphs of the new text stand for one of the old.
-/

namespace ComplexFormula

/-- The characters with others in place of each that stands at a place, where the first of them
stands at a byte offset. -/
def replaceFrom (isPlace : Nat → Bool) (new : Char → List Char) (start : Nat) :
    List Char → List Char
  | [] => []
  | c :: rest =>
    let others := replaceFrom isPlace new (start + c.utf8Size) rest
    if isPlace start then new c ++ others else c :: others

/-- The second run of glyphs is spelled like the first, but at the places, where glyphs `new` stand
for a glyph `g` with `P g new`. -/
inductive Replaces (isPlace : Nat → Bool) (P : Glyph → List Glyph → Prop) :
    List Glyph → List Glyph → Prop
  | nil : Replaces isPlace P [] []
  | keep {g g' : Glyph} {gs gs' : List Glyph} (hplace : isPlace g.start = false)
      (hg : g'.item = g.item) (h : Replaces isPlace P gs gs') :
      Replaces isPlace P (g :: gs) (g' :: gs')
  | place {g : Glyph} {new gs gs' : List Glyph} (hplace : isPlace g.start = true) (hnew : P g new)
      (h : Replaces isPlace P gs gs') : Replaces isPlace P (g :: gs) (new ++ gs')

namespace Replaces

variable {isPlace : Nat → Bool} {P : Glyph → List Glyph → Prop} {gs gs' : List Glyph}

/-- Where nothing is put in place of anything, the runs are spelled alike. -/
theorem of_items (h : gs'.map (·.item) = gs.map (·.item)) :
    Replaces (fun _ => false) P gs gs' := by
  induction gs generalizing gs' with
  | nil =>
    obtain rfl := List.map_eq_nil_iff.1 h
    exact .nil
  | cons g gs ih =>
    obtain ⟨g', gs', rfl, hg, hgs⟩ := List.map_eq_cons_iff.1 h
    exact .keep rfl hg (ih hgs)

/-- The glyphs before the first place are spelled alike. -/
theorem append {used rest : List Glyph} (h : Replaces isPlace P (used ++ rest) gs')
    (hused : ∀ g ∈ used, isPlace g.start = false) :
    ∃ used' rest', gs' = used' ++ rest' ∧ used'.map (·.item) = used.map (·.item) ∧
      Replaces isPlace P rest rest' := by
  induction used generalizing gs' with
  | nil => exact ⟨[], gs', rfl, rfl, h⟩
  | cons g used ih =>
    cases h with
    | @keep _ g' _ gs' _ hg h =>
      obtain ⟨used', rest', rfl, hitems, hrest⟩ := ih h fun u hu => hused u (.tail _ hu)
      exact ⟨g' :: used', rest', rfl, by rw [List.map_cons, List.map_cons, hg, hitems], hrest⟩
    | place hplace => simp [hused g (.head _)] at hplace

/-- What shows at the front of what is put in if it does at what this is put for, shows at the front
of both runs or of neither. -/
theorem head?_any (h : Replaces isPlace P gs gs') {p : Glyph → Bool}
    (hp : ∀ {g g' : Glyph}, g'.item = g.item → p g' = p g)
    (hnew : ∀ {g : Glyph} {new : List Glyph}, P g new → ∃ u us, new = u :: us ∧ p u = p g)
    (rest' : List Glyph) (hrest : rest'.head?.any p = false) :
    (gs' ++ rest').head?.any p = gs.head?.any p := by
  cases h with
  | nil => exact hrest
  | keep _ hg _ => simp [hp hg]
  | place _ h _ =>
    obtain ⟨u, us, rfl, hu⟩ := hnew h
    simp [hu]

end Replaces

/-- If the new characters read as glyphs that stand for the old one, this is so all over the
text. -/
theorem replaces_glyphsFrom {isPlace : Nat → Bool} {P : Glyph → List Glyph → Prop}
    {Q : Glyph → Prop} {new : Char → List Char}
    (hnew : ∀ c start start', Text.isBlank c = false → Q ⟨c.toLower, start, start + c.utf8Size⟩ →
      P ⟨c.toLower, start, start + c.utf8Size⟩ (glyphsFrom start' (new c)))
    {start : Nat} {cs : List Char}
    (hplaces : ∀ o, start ≤ o → isPlace o = true → ∃ g ∈ glyphsFrom start cs, g.start = o ∧ Q g)
    (start' : Nat) :
    Replaces isPlace P (glyphsFrom start cs)
      (glyphsFrom start' (replaceFrom isPlace new start cs)) := by
  induction cs generalizing start start' with
  | nil => exact .nil
  | cons c cs ih =>
    obtain ⟨hfirst, hrest⟩ := places_cons hplaces
    cases hplace : isPlace start with
    | true =>
      obtain ⟨hblank, hQ⟩ := hfirst hplace
      rw [replaceFrom, if_pos hplace, glyphsFrom_append, glyphsFrom, hblank]
      exact .place hplace (hnew c start start' hblank hQ) (ih hrest _)
    | false =>
      rw [replaceFrom, if_neg (by simp [hplace]), glyphsFrom, glyphsFrom]
      cases Text.isBlank c with
      | true => exact ih hrest _
      | false => exact .keep hplace rfl (ih hrest _)

end ComplexFormula
