import ComplexFormula.Proofs.Composition
import ComplexFormula.Proofs.Signs
import ComplexFormula.Proofs.Spelling

/-!
A `*` that is not written may as well be. With a `*` put into the text wherever one is read from
nothing, the same tokens are read, each of them from characters. Behind a number such a `*` is no
part of a mark, since a factor follows it that does not begin with `i`.
-/

namespace ComplexFormula

open List (Forall₂)

namespace Glyph

/-- Whether a factor that needs no `*` in front of it begins with the glyph. -/
def beginsFactor (g : Glyph) : Bool :=
  match g.charClass with
  | .free | .letter | .opening => true
  | _ => false

theorem beginsFactor_congr {g g' : Glyph} (h : g'.item = g.item) :
    g'.beginsFactor = g.beginsFactor := by
  rw [beginsFactor, beginsFactor, charClass_congr h]

/-- A factor does not begin as a number does, nor with a mark or a sign. -/
theorem item_of_beginsFactor {g : Glyph} (h : g.beginsFactor = true) :
    g.isNumeral = false ∧ g.item ≠ 'i' ∧ g.item ≠ '*' := by
  have hne {c : Char} (hc : beginsFactor ⟨c, 0, 0⟩ = false) : g.item ≠ c := by
    intro hg
    simp [beginsFactor_congr (g := ⟨c, 0, 0⟩) hg, hc] at h
  refine ⟨?_, hne rfl, hne rfl⟩
  rw [← Bool.not_eq_true, ← charClass_eq_numeral_iff]
  intro hclass
  simp [beginsFactor, hclass] at h

end Glyph

/-! ### A `*` among the glyphs -/

namespace Lexeme

/-- The glyphs are a `*` and a factor, which stand for the factor. -/
def WithStar (g : Glyph) (new : List Glyph) : Prop :=
  g.beginsFactor = true ∧
    ∃ star g', new = [star, g'] ∧ star.item = '*' ∧ g'.item = g.item

/-- A character behind a `*` reads as its glyph behind a `*`. -/
theorem withStar_glyphsFrom {c : Char} {start : Nat} (hblank : Text.isBlank c = false)
    (hbegins : Glyph.beginsFactor ⟨c.toLower, start, start + c.utf8Size⟩ = true) (start' : Nat) :
    WithStar ⟨c.toLower, start, start + c.utf8Size⟩ (glyphsFrom start' ['*', c]) := by
  have hstar : glyphsFrom start' ['*', c] =
      ⟨'*', start', start' + 1⟩ :: glyphsFrom (start' + 1) [c] := rfl
  rw [hstar, glyphsFrom, hblank]
  exact ⟨hbegins, _, _, rfl, rfl, rfl⟩

section WithStar

variable {isPlace : Nat → Bool} {gs gs' : List Glyph}

/-- What shows neither at a `*` nor at the front of a factor shows at the front of both runs or of
neither. -/
theorem head?_any_withStar (h : Replaces isPlace WithStar gs gs') {p : Glyph → Bool}
    (hp : ∀ {g g' : Glyph}, g'.item = g.item → p g' = p g) (hstar : p ⟨'*', 0, 0⟩ = false)
    (hfactor : ∀ {g : Glyph}, g.beginsFactor = true → p g = false) :
    gs'.head?.any p = gs.head?.any p := by
  have hany := h.head?_any hp ?_ [] rfl
  · rwa [List.append_nil] at hany
  · rintro g _ ⟨hbegins, star, g', rfl, hitem, -⟩
    exact ⟨_, _, rfl, by rw [hp (g := ⟨'*', 0, 0⟩) hitem, hstar, hfactor hbegins]⟩

/-- A number goes on in the same way, for no mark begins where a `*` is put in. -/
theorem sameContinuation_withStar (h : Replaces isPlace WithStar gs gs') :
    SameContinuation gs gs' := by
  have hunit {us us' : List Glyph} (hus : Replaces isPlace WithStar us us') :
      us'.head?.any (·.item == 'i') = us.head?.any (·.item == 'i') :=
    head?_any_withStar hus (fun hg => by rw [hg]) rfl fun hbegins => by
      simpa using (Glyph.item_of_beginsFactor hbegins).2.1
  refine ⟨head?_any_withStar h Glyph.isNumeral_congr rfl fun hbegins =>
    (Glyph.item_of_beginsFactor hbegins).1, ?_⟩
  rw [isSome_imaginaryMark?, isSome_imaginaryMark?, hunit h]
  cases h with
  | nil => rfl
  | keep _ hg h => simp [hg, hunit h]
  | place _ hnew _ =>
    obtain ⟨hbegins, star, g', rfl, -, hg⟩ := hnew
    obtain ⟨-, hi, hstar⟩ := Glyph.item_of_beginsFactor hbegins
    simp [hg, beq_false_of_ne hi, beq_false_of_ne hstar]

/-- Where no `*` is put in at the front, a sign in front negates the same. -/
theorem sameOutlook_withStar (h : Replaces isPlace WithStar gs gs')
    (hhead : ∀ g ∈ gs.head?, isPlace g.start = false) : SameOutlook gs gs' := by
  refine ⟨sameContinuation_withStar h, ?_⟩
  cases h with
  | nil => rfl
  | keep _ hg _ => simp [Glyph.isNegatable_congr hg]
  | @place g _ _ _ hplace => simp [hhead g rfl] at hplace

end WithStar

/-! ### The factors behind the end of an operand -/

/-- The lexemes that are multiplied without a sign by what stands in front of them, where `ended`
tells whether an operand ends in front of all. -/
def factorsFrom (ended : Bool) : List Lexeme → List Lexeme
  | [] => []
  | l :: rest =>
    if ended && beginsFactor l.item then l :: factorsFrom l.item.endsOperand rest
    else factorsFrom l.item.endsOperand rest

/-- A `*` that is read from nothing. -/
def isUnwritten (l : Lexeme) : Bool :=
  l.item = .operator .mul && l.start == l.stop

theorem mem_of_mem_factorsFrom {ended : Bool} {ls : List Lexeme} {l : Lexeme}
    (h : l ∈ factorsFrom ended ls) : l ∈ ls ∧ beginsFactor l.item = true := by
  fun_induction factorsFrom ended ls with
  | case1 => cases h
  | case2 ended m rest hfactor ih =>
    rcases List.mem_cons.1 h with rfl | h
    · exact ⟨.head _, (Bool.and_eq_true_iff.1 hfactor).2⟩
    · exact (ih h).imp_left (.tail _)
  | case3 ended m rest _ ih => exact (ih h).imp_left (.tail _)

/-- Among lexemes that are not empty, a `*` is read from nothing before each of these factors. -/
theorem filter_isUnwritten_multiply {ls : List Lexeme} (hls : ∀ l ∈ ls, l.start ≠ l.stop) :
    (multiply ls).filter isUnwritten = (factorsFrom false ls).map times := by
  have hwritten {l : Lexeme} (hl : l.start ≠ l.stop) : isUnwritten l = false := by
    simp [isUnwritten, hl]
  suffices h : ∀ left rest, (∀ l ∈ left :: rest, l.start ≠ l.stop) →
      (multiply (left :: rest)).filter isUnwritten =
        (factorsFrom left.item.endsOperand rest).map times by
    cases ls with
    | nil => rfl
    | cons left rest => simp [factorsFrom, h left rest hls]
  intro left rest
  induction rest generalizing left with
  | nil =>
    intro hls
    simp [multiply, factorsFrom, hwritten (hls left (.head _))]
  | cons right rest ih =>
    intro hls
    obtain ⟨hleft, hls⟩ := List.forall_mem_cons.1 hls
    have htimes : isUnwritten (times right) = true := by simp [isUnwritten, times]
    rw [multiply, factorsFrom, ← juxtaposed]
    split <;> simp [hwritten hleft, htimes, ih right hls]

section Step

variable {limit : Nat} {inner : Option Reader} {before : Option Glyph} {g : Glyph}
  {rest : List Glyph} {r : Reading}

/-- Whether what is read begins a factor shows at its first glyph. -/
theorem beginsFactor_of_readOne (h : readOne limit inner before g rest = .ok r) {l : Lexeme}
    (hl : l ∈ r.lexemes) : beginsFactor l.item = g.beginsFactor := by
  cases hbegins : g.beginsFactor with
  | true =>
    unfold Glyph.beginsFactor at hbegins
    unfold readOne at h
    split at hbegins <;> simp only [*] at h
    · cases h
      obtain rfl := List.mem_singleton.1 hl
      rfl
    · obtain ⟨_, _, _, arguments, _, a, -, -, -, -, -, ha, rfl⟩ := readCall_eq_ok_iff.1 h
      obtain rfl := List.mem_singleton.1 hl
      rcases Builtin.call_eq_ok_iff.1 ha with ⟨_, _, -, -, rfl⟩ | ⟨_, _, _, -, -, rfl⟩ <;> rfl
    · cases h
      obtain rfl := List.mem_singleton.1 hl
      rfl
    · cases hbegins
  | false =>
    have hne {c : Char} (hc : Glyph.beginsFactor ⟨c, 0, 0⟩ = true) : g.item ≠ c := by
      intro hg
      simp [Glyph.beginsFactor_congr (g := ⟨c, 0, 0⟩) hg, hc] at hbegins
    cases stepRead_of_readOne h with
    | literal _ _ hr =>
      obtain ⟨z, stop, hlexemes⟩ := lexemes_of_readLiteral hr
      rw [hlexemes] at hl
      obtain rfl := List.mem_singleton.1 hl
      rfl
    | free hg => exact absurd hg (hne rfl)
    | opening hg => exact absurd hg (hne rfl)
    | call hclass _ => simp [Glyph.beginsFactor, hclass] at hbegins
    | imaginaryUnit | closing | operator =>
      obtain rfl := List.mem_singleton.1 hl
      rfl
    | negation =>
      simp only [List.mem_cons, List.not_mem_nil, or_false] at hl
      rcases hl with rfl | rfl <;> rfl

/-- What is read of a factor does not depend on what stands in front of it. -/
theorem readOne_of_beginsFactor (h : g.beginsFactor = true) (before' : Option Glyph) :
    readOne limit inner before' g rest = readOne limit inner before g rest := by
  unfold readOne
  cases hclass : g.charClass <;> first | rfl | simp [Glyph.beginsFactor, hclass] at h

/-- What is read in a step has a `*` in front if an operand ends before it and it begins a factor,
and none within. -/
theorem append_of_readOne (h : readOne limit inner before g rest = .ok r) (ended : Bool)
    (tail : List Lexeme) :
    factorsFrom ended (r.lexemes ++ tail) =
      (if ended && g.beginsFactor then r.lexemes else []) ++
        factorsFrom (!awaitsOperand (some r.last)) tail ∧
    Token.multiplyFrom ended ((r.lexemes ++ tail).map (·.item)) =
      (if ended && g.beginsFactor then [.operator .mul] else []) ++
        (r.lexemes.map (·.item) ++
          Token.multiplyFrom (!awaitsOperand (some r.last)) (tail.map (·.item))) := by
  have hbegins := fun l => beginsFactor_of_readOne h (l := l)
  have hlast := awaitsOperand_of_readOne h
  obtain ⟨used, -, hread⟩ := exists_used_of_readOne h
  generalize r.lexemes = read at hbegins hlast hread ⊢
  cases hread with
  | token item =>
    have hitem : beginsFactor item = g.beginsFactor := hbegins _ (.head _)
    rw [hlast]
    simp only [List.singleton_append, factorsFrom, Token.multiplyFrom, List.map_cons, hitem,
      List.getLast?_singleton, awaitedBehind, Bool.not_not]
    split <;> simp
  | negation =>
    have hitem : false = g.beginsFactor := hbegins _ (.head _)
    rw [hlast, ← hitem]
    simp [factorsFrom, Token.multiplyFrom, Spanned.map, beginsFactor, awaitedBehind]

end Step

/-! ### Reading with each `*` put in -/

/-- The places among the glyphs are where the factors start that are multiplied without a sign. -/
structure Marked (isPlace : Nat → Bool) (gs : List Glyph) (factors : List Lexeme) : Prop where
  sorted : gs.Pairwise (·.start < ·.start)
  place_iff : ∀ g ∈ gs, isPlace g.start = true ↔ ∃ l ∈ factors, l.start = g.start

section Marked

variable {limit limit' : Nat} {inner inner' : Option Reader} {before before' : Option Glyph}
  {isPlace : Nat → Bool} {g : Glyph} {used rest gs gs' : List Glyph} {r : Reading}
  {ls tail : List Lexeme}

/-- A place at the first glyph of a step is one of a factor behind the end of an operand, and no
other glyph that the step uses up is at a place. -/
theorem Marked.step (hinner : InnerRefines inner inner')
    (h : readOne limit inner before g (used ++ r.rest) = .ok r)
    (hscans : Scans limit inner (some r.last) r.rest tail)
    (hmarked : Marked isPlace (g :: (used ++ r.rest))
      (factorsFrom (!awaitsOperand before) (r.lexemes ++ tail))) :
    isPlace g.start = (!awaitsOperand before && g.beginsFactor) ∧
      (∀ u ∈ used, isPlace u.start = false) ∧
      Marked isPlace r.rest (factorsFrom (!awaitsOperand (some r.last)) tail) := by
  obtain ⟨hsorted, hplaces⟩ := hmarked
  rw [(append_of_readOne h _ _).1] at hplaces
  have hread : ∀ l ∈ r.lexemes, l.start = g.start := fun l hl => (lexemes_of_readOne h hl).1
  have htail : ∀ l ∈ factorsFrom (!awaitsOperand (some r.last)) tail,
      ∃ u ∈ r.rest, l.start = u.start := by
    intro l hl
    obtain ⟨u, hu, hstart, -⟩ := hscans.exists_start hinner (mem_of_mem_factorsFrom hl).1
    exact ⟨u, hu, hstart⟩
  generalize (!awaitsOperand before && g.beginsFactor) = first at hplaces ⊢
  generalize factorsFrom (!awaitsOperand (some r.last)) tail = factors at hplaces htail ⊢
  have hfirst : ∀ l ∈ (if first then r.lexemes else []), l.start = g.start := by
    intro l hl
    cases first with
    | true => exact hread l hl
    | false => cases hl
  refine ⟨?_, ?_, (List.pairwise_append.1 (List.pairwise_cons.1 hsorted).2).2.1, ?_⟩
  · cases first with
    | true =>
      obtain ⟨l, hl⟩ := List.exists_mem_of_ne_nil _ (lexemes_ne_nil_of_readOne h)
      exact (hplaces g (.head _)).2 ⟨l, List.mem_append_left _ hl, hread l hl⟩
    | false =>
      rw [← Bool.not_eq_true]
      intro hplace
      obtain ⟨l, hl, hstart⟩ := (hplaces g (.head _)).1 hplace
      obtain ⟨u, hu, hstart'⟩ := htail l hl
      have := List.rel_of_pairwise_cons hsorted (List.mem_append_right _ hu)
      omega
  · intro u hu
    rw [← Bool.not_eq_true]
    intro hplace
    obtain ⟨l, hl, hstart⟩ := (hplaces u (.tail _ (List.mem_append_left _ hu))).1 hplace
    exact start_ne_of_mem_used hsorted hfirst htail hl hu hstart
  · intro u hu
    have hu := List.mem_append_right used hu
    rw [hplaces u (.tail _ hu)]
    constructor
    · rintro ⟨l, hl, hstart⟩
      exact ⟨l, mem_of_start_eq hsorted hfirst hl hu hstart, hstart⟩
    · rintro ⟨l, hl, hstart⟩
      exact ⟨l, List.mem_append_right _ hl, hstart⟩

/-- With a `*` at each place behind it a step reads the same and leaves the same glyphs, with a `*`
at each place. -/
theorem step_withStar (hinner : InnerRefines inner inner')
    (h : readOne limit inner before g (used ++ r.rest) = .ok r)
    (hused : ∀ u ∈ used, isPlace u.start = false)
    (hends : (∃ u ∈ r.rest.head?, isPlace u.start = true) → r.last.endsOperand = true)
    (hstarred : Replaces isPlace WithStar (used ++ r.rest) gs')
    (hbefore : awaitsOperand before' = awaitsOperand before) {g' : Glyph} (hg : g'.item = g.item) :
    ∃ r', readOne limit' inner' before' g' gs' = .ok r' ∧
      r'.lexemes.map (·.item) = r.lexemes.map (·.item) ∧ r'.last.item = r.last.item ∧
      Replaces isPlace WithStar r.rest r'.rest := by
  obtain ⟨used', rest', rfl, hitems, hstarred⟩ := hstarred.append hused
  by_cases hplace : ∃ u ∈ r.rest.head?, isPlace u.start = true
  · -- only where an operand ends does a step not look beyond the number that it reads
    obtain ⟨used₁, hused₁, hread⟩ := readOne_movable h limit' hinner hbefore hg (hends hplace)
    obtain rfl := List.append_cancel_right hused₁
    obtain ⟨r', hr', hlexemes, hlast, rfl⟩ :=
      hread used' rest' hitems (sameContinuation_withStar hstarred)
    exact ⟨r', hr', hlexemes, hlast, hstarred⟩
  · have hhead : ∀ u ∈ r.rest.head?, isPlace u.start = false := by
      intro u hu
      rw [← Bool.not_eq_true]
      exact fun htrue => hplace ⟨u, hu, htrue⟩
    obtain ⟨used₁, hused₁, hread⟩ := readOne_portable h limit' hinner hbefore hg
    obtain rfl := List.append_cancel_right hused₁
    obtain ⟨r', hr', hlexemes, hlast, rfl⟩ :=
      hread used' rest' hitems (sameOutlook_withStar hstarred hhead)
    exact ⟨r', hr', hlexemes, hlast, hstarred⟩

/-- Where a run begins with a factor at a place, an operand ends in front of it. -/
theorem Marked.endsOperand (hinner : InnerRefines inner inner') {last : Glyph}
    (h : Scans limit inner (some last) gs ls)
    (hmarked : Marked isPlace gs (factorsFrom (!awaitsOperand (some last)) ls))
    (hhead : ∃ u ∈ gs.head?, isPlace u.start = true) : last.endsOperand = true := by
  obtain ⟨u, hu, hplace⟩ := hhead
  cases h with
  | nil => cases hu
  | cons h hscans =>
    cases hu
    obtain ⟨used, rfl, -⟩ := readOne_portable h limit hinner rfl rfl
    rw [(hmarked.step hinner h hscans).1] at hplace
    simpa [awaitsOperand] using (Bool.and_eq_true_iff.1 hplace).1

/-- With a `*` at each place the same tokens are read, and each `*` that is read from nothing. -/
theorem Scans.star (hinner : InnerRefines inner inner') (h : Scans limit inner before gs ls)
    (hmarked : Marked isPlace gs (factorsFrom (!awaitsOperand before) ls))
    (hstarred : Replaces isPlace WithStar gs gs')
    (hbefore : awaitsOperand before' = awaitsOperand before) :
    ∃ ls', Scans limit' inner' before' gs' ls' ∧
      ls'.map (·.item) = Token.multiplyFrom (!awaitsOperand before) (ls.map (·.item)) := by
  induction h generalizing gs' before' with
  | nil =>
    cases hstarred
    exact ⟨[], .nil _, rfl⟩
  | @cons before g rest r tail h hscans ih =>
    obtain ⟨used, rfl, -⟩ := readOne_portable h limit hinner rfl rfl
    obtain ⟨hplace, hused, hmarked⟩ := hmarked.step hinner h hscans
    have hends := hmarked.endsOperand hinner hscans
    have hitems := (append_of_readOne h (!awaitsOperand before) tail).2
    rw [← hplace] at hitems
    cases hstarred with
    | keep hkept hg hstarred =>
      obtain ⟨r', hr', hlexemes, hlast, hstarred⟩ :=
        step_withStar hinner h hused hends hstarred hbefore hg
      obtain ⟨tail', hscans', htail'⟩ := ih hmarked hstarred (awaitsOperand_congr hlast)
      refine ⟨r'.lexemes ++ tail', .cons hr' hscans', ?_⟩
      rw [hitems]
      simp [hkept, hlexemes, htail']
    | @place _ _ _ gs' hplaced hnew hstarred =>
      obtain ⟨hbegins, star, g', rfl, hstar, hg⟩ := hnew
      -- behind the `*` an operand is awaited again, which makes no difference to a factor
      have hfactor : readOne limit inner (some star) g (used ++ r.rest) = .ok r :=
        (readOne_of_beginsFactor hbegins _).trans h
      obtain ⟨r', hr', hlexemes, hlast, hstarred⟩ :=
        step_withStar hinner hfactor hused hends hstarred rfl hg
      obtain ⟨tail', hscans', htail'⟩ := ih hmarked hstarred (awaitsOperand_congr hlast)
      refine ⟨_, .cons (readOne_of_item hstar rfl) (.cons hr' hscans'), ?_⟩
      rw [hitems]
      simp [hplaced, hlexemes, htail', Reading.single, Spanned.map]

end Marked

/-- Where no `*` is missing in the tokens, none is put in. -/
theorem multiply_eq_self_of_items {ls : List Lexeme}
    (h : Token.multiplyFrom false (ls.map (·.item)) = ls.map (·.item)) : multiply ls = ls := by
  have hlength := congrArg List.length ((items_multiply ls).trans h)
  rw [List.length_map, List.length_map] at hlength
  exact ((sublist_multiply ls).eq_of_length hlength.symm).symm

end Lexeme

/-- Tokens read from two texts are alike if it does not matter where they stand. -/
theorem alike_of_items {ls ls' : List Lexeme} (h : ls'.map (·.item) = ls.map (·.item)) :
    Forall₂ (Spanned.Alike fun _ _ => True) ls ls' := by
  have hitems : Forall₂ Eq (ls.map (·.item)) (ls'.map (·.item)) := by
    rw [List.forall₂_eq_eq_eq, h]
  rw [List.forall₂_map_left_iff, List.forall₂_map_right_iff] at hitems
  exact hitems.imp fun _ _ h => ⟨h.symm, trivial⟩

/-- Once each `*` is put in, no more is. -/
theorem Token.multiplyFrom_multiplyFrom (ended : Bool) (ts : List (Token Atom)) :
    multiplyFrom ended (multiplyFrom ended ts) = multiplyFrom ended ts := by
  induction ts generalizing ended with
  | nil => rfl
  | cons t ts ih =>
    rw [multiplyFrom]
    split
    · simp [multiplyFrom, Lexeme.beginsFactor, endsOperand, ih]
    · next hfactor => rw [multiplyFrom, if_neg hfactor, ih]

namespace Formula

/-- The byte offsets at which a `*` is read from nothing. -/
def unwritten (f : Formula) : List Nat :=
  match f.lexemes with
  | .ok ls => (ls.filter Lexeme.isUnwritten).map (·.start)
  | .error _ => []

/-- The formula with a `*` put into the text wherever one is read from nothing. -/
def explicit (f : Formula) : Formula where
  text := String.ofList (replaceFrom f.unwritten.contains (fun c => ['*', c]) 0 f.text.toList)
  depthLimit := f.depthLimit

variable {f : Formula} {ls : List Lexeme}

/-- The factors that are multiplied without a sign stand where a `*` is read from nothing. -/
theorem contains_unwritten
    (h : Lexeme.Scans f.depthLimit (Lexeme.innerReader f.depthLimit f.depthLimit) none
      (glyphs f.text) ls) {o : Nat} :
    f.unwritten.contains o = true ↔ ∃ l ∈ Lexeme.factorsFrom false ls, l.start = o := by
  have hne : ∀ l ∈ ls, l.start ≠ l.stop := by
    intro l hl
    exact Nat.ne_of_lt (h.tiles.bounds (Glyph.ordered_glyphs f.text) hl).2.2
  have hlexemes : f.lexemes = .ok (Lexeme.multiply ls) := lexemes_eq_ok_iff.2 ⟨ls, h, rfl⟩
  simp [unwritten, hlexemes, Lexeme.filter_isUnwritten_multiply hne, Lexeme.times]

/-- The same tokens are read from the text with each `*`, and none of them from nothing. -/
theorem lexemes_explicit (h : f.lexemes = .ok ls) : ∃ ls', f.explicit.lexemes = .ok ls' ∧
    ls'.map (·.item) = ls.map (·.item) ∧ ∀ l ∈ ls', l.start < l.stop := by
  obtain ⟨scanned, hscans, rfl⟩ := lexemes_eq_ok_iff.1 h
  have hmarked : Lexeme.Marked f.unwritten.contains (glyphs f.text)
      (Lexeme.factorsFrom false scanned) :=
    ⟨pairwise_glyphsFrom 0 _, fun _ _ => contains_unwritten hscans⟩
  have hstarred : Replaces f.unwritten.contains Lexeme.WithStar (glyphs f.text)
      (glyphs f.explicit.text) := by
    rw [glyphs, glyphs, explicit, String.toList_ofList]
    refine replaces_glyphsFrom (Q := (·.beginsFactor = true)) (fun _ _ start' hblank hbegins =>
      Lexeme.withStar_glyphsFrom hblank hbegins start') (fun o _ ho => ?_) 0
    obtain ⟨l, hl, rfl⟩ := (contains_unwritten hscans).1 ho
    obtain ⟨hl, hbegins⟩ := Lexeme.mem_of_mem_factorsFrom hl
    obtain ⟨front, after, hsplit⟩ := List.append_of_mem hl
    obtain ⟨_, lead, trail, _, g, _, r, -, hg, hread, hr, -⟩ :=
      Reached.text.exists_step hscans hsplit
    have hl : l ∈ r.lexemes := by simp [hr]
    refine ⟨g, hg, (Lexeme.lexemes_of_readOne hread hl).1.symm, ?_⟩
    rw [← Lexeme.beginsFactor_of_readOne hread hl, hbegins]
  obtain ⟨ls', hscans', hitems⟩ :=
    hscans.star (Lexeme.innerReader_refines (Nat.le_refl _)) hmarked hstarred rfl
  have hself : Lexeme.multiply ls' = ls' := by
    refine Lexeme.multiply_eq_self_of_items ?_
    rw [hitems]
    exact Token.multiplyFrom_multiplyFrom _ _
  refine ⟨ls', lexemes_eq_ok_iff.2 ⟨ls', hscans', hself⟩, ?_, ?_⟩
  · rw [hitems, Lexeme.items_multiply]
    rfl
  · intro l hl
    exact (hscans'.tiles.bounds (Glyph.ordered_glyphs _) hl).2.2

/-- A formula whose text can be read has the tokens of the text with each `*` in it that is not
written, of which none is empty. So both give the same expression or are refused for the same
fault. -/
theorem agree_explicit (h : f.lexemes = .ok ls) :
    (∃ ls', f.explicit.lexemes = .ok ls' ∧ ls'.map (·.item) = ls.map (·.item) ∧
      ∀ l ∈ ls', l.start < l.stop) ∧
    Agree (fun _ _ => True) Eq f.build f.explicit.build := by
  obtain ⟨ls', h', hitems, hnonempty⟩ := lexemes_explicit h
  refine ⟨⟨ls', h', hitems, hnonempty⟩, ?_⟩
  have halike : Forall₂ (Spanned.Alike fun _ _ => True) ls ls' := alike_of_items hitems
  have hlexemes : Agree (fun _ _ => True) (Forall₂ (Spanned.Alike fun _ _ => True)) f.lexemes
      f.explicit.lexemes := by
    rw [h, h']
    exact .ok halike
  have hterms := hlexemes.bind (Postfix.arrange_agree f.depthLimit .nil .nil)
  have htree : Agree (fun _ _ => True) Eq f.tree f.explicit.tree :=
    hterms.bind (Tree.build_agree .nil)
  rw [build_eq, build_eq]
  exact htree.map (congrArg Expression.ofTree)

/-- A `*` is put in behind an imaginary number, behind a parenthesis and behind a call. -/
theorem agree_explicit_product :
    (Formula.mk "2I(x) sin(1)X" 1).explicit = ⟨"2I*(x) *sin(1)*X", 1⟩ ∧
    ∃ ls ls', (Formula.mk "2I(x) sin(1)X" 1).lexemes = .ok ls ∧
      (Formula.mk "2I*(x) *sin(1)*X" 1).lexemes = .ok ls' ∧
      ls'.map (·.item) = ls.map (·.item) ∧ ∀ l ∈ ls', l.start < l.stop := by
  have hexplicit : (Formula.mk "2I(x) sin(1)X" 1).explicit = ⟨"2I*(x) *sin(1)*X", 1⟩ := by
    decide +kernel
  have hok : (Formula.mk "2I(x) sin(1)X" 1).lexemes.isOk = true := by decide +kernel
  refine ⟨hexplicit, ?_⟩
  cases hlexemes : (Formula.mk "2I(x) sin(1)X" 1).lexemes with
  | error e =>
    rw [hlexemes] at hok
    cases hok
  | ok ls =>
    obtain ⟨ls', hls', hsame⟩ := (agree_explicit hlexemes).1
    rw [hexplicit] at hls'
    exact ⟨ls, ls', rfl, hls', hsame⟩

end Formula

end ComplexFormula
