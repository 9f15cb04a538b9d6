import ComplexFormula.Proofs.Acceptance
import ComplexFormula.Proofs.Offsets
import ComplexFormula.Proofs.Portability

/-!
The lexemes of a text take up all of its characters but the blanks, in order and none twice. The one
exception is a `-` that stands for a factor `-1`, whose two lexemes share its place. A `*` that is
not written takes up nothing.
-/

namespace ComplexFormula

/-- Whether the byte at an offset is among those of the item. -/
def Spanned.covers {α : Type} (s : Spanned α) (b : Nat) : Bool :=
  s.start ≤ b && b < s.stop

theorem Spanned.covers_iff {α : Type} {s : Spanned α} {b : Nat} :
    s.covers b = true ↔ s.start ≤ b ∧ b < s.stop := by
  simp [covers]

namespace Lexeme

/-! ### What a step uses up -/

/-- What is read from some glyphs in a row: a token that begins with the first of them and ends with
the last, or a factor `-1` from a `-`. -/
inductive ReadFrom (used : List Glyph) : List Lexeme → Prop
  | token {first last : Glyph} (item : Token Atom) (hfirst : used.head? = some first)
      (hlast : used.getLast? = some last) : ReadFrom used [⟨item, first.start, last.stop⟩]
  | negation {g : Glyph} (hg : g.item = '-') (hused : used = [g]) :
      ReadFrom used [g.map fun _ => .operand (.number .minusOne), g.map fun _ => .operator .mul]

theorem getLast?_cons_append_cons {α : Type} (a b : α) (us : List α) :
    (a :: (us ++ [b])).getLast? = some b := by
  rw [← List.cons_append, List.getLast?_concat]

/-- A number is read from its digits and its mark, up to the last glyph of these. -/
theorem exists_used_of_readLiteral {start : Nat} {negative : Bool} {first : Glyph}
    {rest : List Glyph} {r : Reading} (h : readLiteral start negative first rest = .ok r) :
    ∃ used, rest = used ++ r.rest ∧ (first :: used).getLast? = some r.last ∧
      ∃ item, r.lexemes = [⟨item, start, r.last.stop⟩] := by
  have hdrop := List.takeWhile_append_dropWhile (p := Glyph.isNumeral) (l := rest)
  simp only [readLiteral] at h
  split at h
  · cases h
  split at h
  · next mark after hmark =>
    cases h
    obtain ⟨-, hafter | ⟨star, -, hafter⟩⟩ := imaginaryMark?_eq_some_iff.1 hmark
    · refine ⟨rest.takeWhile Glyph.isNumeral ++ [mark], ?_, ?_, _, rfl⟩
      · rw [List.append_assoc, List.singleton_append, ← hafter, hdrop]
      · exact getLast?_cons_append_cons _ _ _
    · refine ⟨rest.takeWhile Glyph.isNumeral ++ [star] ++ [mark], ?_, ?_, _, rfl⟩
      · rw [List.append_assoc, List.append_assoc, List.singleton_append, List.singleton_append,
          ← hafter, hdrop]
      · exact getLast?_cons_append_cons _ _ _
  · cases h
    refine ⟨rest.takeWhile Glyph.isNumeral, hdrop.symm, ?_, _, rfl⟩
    simp [List.getLast?_cons, List.getLastD_eq_getLast?]

/-- A call is read from its name, its arguments and the parentheses around them. -/
theorem exists_used_of_readCall {limit : Nat} {inner : Option Reader} {first : Glyph}
    {rest : List Glyph} {r : Reading} (h : readCall limit inner first rest = .ok r) :
    ∃ used, rest = used ++ r.rest ∧ (first :: used).getLast? = some r.last ∧
      ∃ item, r.lexemes = [⟨item, first.start, r.last.stop⟩] := by
  obtain ⟨opening, inside, reader, arguments, atoms, a, hinside, -, -, harguments, -, -, rfl⟩ :=
    readCall_eq_ok_iff.1 h
  obtain ⟨used, rfl, -, -⟩ := ArgumentList.exists_inside_of_split? harguments
  have hdrop := List.takeWhile_append_dropWhile (p := Glyph.isLetter) (l := rest)
  refine ⟨rest.takeWhile Glyph.isLetter ++ opening :: used ++ [arguments.closing], ?_, ?_, _, rfl⟩
  · simpa [hinside] using hdrop.symm
  · exact getLast?_cons_append_cons _ _ _

/-- A step uses up the glyphs in front of those that it leaves, and reads its lexemes from them. -/
theorem exists_used_of_readOne {limit : Nat} {inner : Option Reader} {before : Option Glyph}
    {g : Glyph} {rest : List Glyph} {r : Reading} (h : readOne limit inner before g rest = .ok r) :
    ∃ used, g :: rest = used ++ r.rest ∧ ReadFrom used r.lexemes := by
  have single {token : Token Atom}
      (hr : .ok (.single token g rest) = Except.ok (ε := ParseError) r) :
      ∃ used, g :: rest = used ++ r.rest ∧ ReadFrom used r.lexemes := by
    cases hr
    exact ⟨[g], rfl, .token token rfl rfl⟩
  have token (hr : ∃ used, rest = used ++ r.rest ∧ (g :: used).getLast? = some r.last ∧
      ∃ item, r.lexemes = [⟨item, g.start, r.last.stop⟩]) :
      ∃ used, g :: rest = used ++ r.rest ∧ ReadFrom used r.lexemes := by
    obtain ⟨used, hrest, hlast, item, hr⟩ := hr
    exact ⟨g :: used, by rw [hrest, List.cons_append], hr ▸ .token item rfl hlast⟩
  unfold readOne at h
  cases hclass : g.charClass <;> simp only [hclass] at h
  case numeral => exact token (exists_used_of_readLiteral h)
  case letter => exact token (exists_used_of_readCall h)
  case operator o =>
    split at h
    · next hsign =>
      have hg : g.item = '-' := by
        rw [Glyph.item_of_charClass hclass, hsign.1]
        rfl
      cases hnumeral : rest.head?.any Glyph.isNumeral with
      | true =>
        obtain ⟨next, hnext, hnumeral⟩ := (Option.any_eq_true _ _).1 hnumeral
        obtain ⟨after, rfl⟩ := List.head?_eq_some_iff.1 hnext
        rw [readSign_of_isNumeral hnumeral] at h
        obtain ⟨used, hafter, hlast, item, hr⟩ := exists_used_of_readLiteral h
        refine token ⟨next :: used, by rw [hafter, List.cons_append], ?_, item, hr⟩
        rw [List.getLast?_cons, hlast, Option.getD_some]
      | false =>
        rw [readSign_of_not_isNumeral hnumeral] at h
        cases h
        refine ⟨[g], rfl, ?_⟩
        split
        · exact .negation hg rfl
        · exact .token _ rfl rfl
    · exact single h
  case foreign => cases h
  all_goals exact single h

/-- The glyphs are used up run by run, and the lexemes are read from these runs in turn. -/
inductive Tiles : List Glyph → List Lexeme → Prop
  | nil : Tiles [] []
  | append {used rest : List Glyph} {read ls : List Lexeme} (hread : ReadFrom used read)
      (h : Tiles rest ls) : Tiles (used ++ rest) (read ++ ls)

theorem Scans.tiles {limit : Nat} {inner : Option Reader} {before : Option Glyph} {gs : List Glyph}
    {ls : List Lexeme} (h : Scans limit inner before gs ls) : Tiles gs ls := by
  induction h with
  | nil => exact .nil
  | cons h _ ih =>
    obtain ⟨used, hused, hread⟩ := exists_used_of_readOne h
    rw [hused]
    exact .append hread ih

end Lexeme

/-! ### Where the lexemes lie -/

/-- Glyphs one behind the other, none of them empty. -/
structure Glyph.Ordered (gs : List Glyph) : Prop where
  apart : gs.Pairwise (·.stop ≤ ·.start)
  nonempty : ∀ g ∈ gs, g.start < g.stop

namespace Glyph

variable {us vs : List Glyph}

theorem Ordered.left (h : Ordered (us ++ vs)) : Ordered us where
  apart := (List.pairwise_append.1 h.apart).1
  nonempty g hg := h.nonempty g (List.mem_append_left _ hg)

theorem Ordered.right (h : Ordered (us ++ vs)) : Ordered vs where
  apart := (List.pairwise_append.1 h.apart).2.1
  nonempty g hg := h.nonempty g (List.mem_append_right _ hg)

theorem Ordered.stop_le_start (h : Ordered (us ++ vs)) {u v : Glyph} (hu : u ∈ us) (hv : v ∈ vs) :
    u.stop ≤ v.start :=
  (List.pairwise_append.1 h.apart).2.2 u hu v hv

/-- The first glyph begins first. -/
theorem Ordered.start_le (h : Ordered us) {first u : Glyph} (hfirst : us.head? = some first)
    (hu : u ∈ us) : first.start ≤ u.start := by
  obtain ⟨rest, rfl⟩ := List.head?_eq_some_iff.1 hfirst
  have hlt := h.nonempty first (.head _)
  rcases List.mem_cons.1 hu with rfl | hu
  · exact Nat.le_refl _
  · have := List.rel_of_pairwise_cons h.apart hu
    omega

/-- The last glyph ends last. -/
theorem Ordered.le_stop (h : Ordered us) {last u : Glyph} (hlast : us.getLast? = some last)
    (hu : u ∈ us) : u.stop ≤ last.stop := by
  obtain ⟨front, rfl⟩ := List.getLast?_eq_some_iff.1 hlast
  have hlt := h.nonempty last (by simp)
  rcases List.mem_append.1 hu with hu | hu
  · have := h.stop_le_start hu (List.mem_singleton.2 rfl)
    omega
  · rw [List.mem_singleton.1 hu]

theorem ordered_glyphs (text : String) : Ordered (glyphs text) where
  apart := pairwise_stop_glyphsFrom 0 _
  nonempty _ hg := start_lt_stop_of_mem_glyphsFrom hg

end Glyph

namespace Lexeme

/-- The lexeme begins and ends with glyphs of the run and takes up all of it. -/
theorem ReadFrom.bounds {used : List Glyph} {read : List Lexeme} (h : ReadFrom used read)
    (hused : Glyph.Ordered used) {l : Lexeme} (hl : l ∈ read) :
    (∃ g ∈ used, l.start = g.start) ∧ (∃ g ∈ used, l.stop = g.stop) ∧
      ∀ u ∈ used, l.start ≤ u.start ∧ u.stop ≤ l.stop := by
  cases h with
  | @token first last item hfirst hlast =>
    obtain rfl := List.mem_singleton.1 hl
    exact ⟨⟨first, List.mem_of_mem_head? hfirst, rfl⟩, ⟨last, List.mem_of_mem_getLast? hlast, rfl⟩,
      fun u hu => ⟨hused.start_le hfirst hu, hused.le_stop hlast hu⟩⟩
  | @negation g hg hrun =>
    subst hrun
    simp only [List.mem_cons, List.not_mem_nil, or_false] at hl
    rcases hl with rfl | rfl <;> simp [Spanned.map]

section Tiles

variable {gs : List Glyph} {ls : List Lexeme}

/-- Each lexeme begins and ends with a glyph. -/
theorem Tiles.bounds (h : Tiles gs ls) (hgs : Glyph.Ordered gs) {l : Lexeme} (hl : l ∈ ls) :
    (∃ g ∈ gs, l.start = g.start) ∧ (∃ g ∈ gs, l.stop = g.stop) ∧ l.start < l.stop := by
  induction h with
  | nil => cases hl
  | @append used rest read ls hread h ih =>
    rcases List.mem_append.1 hl with hl | hl
    · obtain ⟨⟨g, hg, hstart⟩, ⟨g', hg', hstop⟩, hcovers⟩ := hread.bounds hgs.left hl
      refine ⟨⟨g, List.mem_append_left _ hg, hstart⟩, ⟨g', List.mem_append_left _ hg', hstop⟩, ?_⟩
      have := hcovers g hg
      have := hgs.left.nonempty g hg
      omega
    · obtain ⟨⟨g, hg, hstart⟩, ⟨g', hg', hstop⟩, hlt⟩ := ih hgs.right hl
      exact ⟨⟨g, List.mem_append_right _ hg, hstart⟩, ⟨g', List.mem_append_right _ hg', hstop⟩,
        hlt⟩

/-- The lexemes of a run begin together, and before those of the runs behind it. -/
theorem Tiles.pairwise (h : Tiles gs ls) (hgs : Glyph.Ordered gs) :
    ls.Pairwise (·.start ≤ ·.start) := by
  induction h with
  | nil => exact .nil
  | @append used rest read ls hread h ih =>
    refine List.pairwise_append.2 ⟨?_, ih hgs.right, ?_⟩
    · cases hread with
      | token => exact List.pairwise_singleton _ _
      | negation => simp [Spanned.map]
    · intro l hl m hm
      obtain ⟨⟨g, hg, hstart⟩, -, -⟩ := hread.bounds hgs.left hl
      obtain ⟨⟨g', hg', hstart'⟩, -, -⟩ := h.bounds hgs.right hm
      have := hgs.stop_le_start hg hg'
      have := hgs.left.nonempty g hg
      omega

/-- The lexemes that cover a glyph are those that are read from its run. -/
theorem Tiles.filter_covers (h : Tiles gs ls) (hgs : Glyph.Ordered gs) {g : Glyph} (hg : g ∈ gs) :
    ∃ used read, g ∈ used ∧ ReadFrom used read ∧
      ∀ b, g.start ≤ b → b < g.stop → ls.filter (·.covers b) = read := by
  induction h with
  | nil => cases hg
  | @append used rest read ls hread h ih =>
    rcases List.mem_append.1 hg with hg | hg
    · refine ⟨used, read, hg, hread, ?_⟩
      intro b hstart hstop
      have hinside : read.filter (·.covers b) = read := by
        refine List.filter_eq_self.2 fun l hl => Spanned.covers_iff.2 ?_
        have := (hread.bounds hgs.left hl).2.2 g hg
        omega
      have houtside : ls.filter (·.covers b) = [] := by
        refine List.filter_eq_nil_iff.2 fun l hl => ?_
        obtain ⟨⟨g', hg', hstart'⟩, -, -⟩ := h.bounds hgs.right hl
        have := hgs.stop_le_start hg hg'
        rw [Spanned.covers_iff]
        omega
      rw [List.filter_append, hinside, houtside, List.append_nil]
    · obtain ⟨used', read', hg', hread', hcovers⟩ := ih hgs.right hg
      refine ⟨used', read', hg', hread', ?_⟩
      intro b hstart hstop
      have houtside : read.filter (·.covers b) = [] := by
        refine List.filter_eq_nil_iff.2 fun l hl => ?_
        obtain ⟨-, ⟨u, hu, hstop'⟩, -⟩ := hread.bounds hgs.left hl
        have := hgs.stop_le_start hu hg
        rw [Spanned.covers_iff]
        omega
      rw [List.filter_append, houtside, List.nil_append, hcovers b hstart hstop]

end Tiles

/-! ### The `*` that is not written -/

section Multiply

variable {ls : List Lexeme}

/-- A `*` that is not written begins with what it stands before. -/
theorem pairwise_multiply (h : ls.Pairwise (·.start ≤ ·.start)) :
    (multiply ls).Pairwise (·.start ≤ ·.start) := by
  have hle {l m : Lexeme} {rest : List Lexeme} (hl : ∀ r ∈ rest, l.start ≤ r.start)
      (hm : m ∈ multiply rest) : l.start ≤ m.start := by
    rcases mem_multiply hm with hm | ⟨r, hr, rfl⟩
    · exact hl m hm
    · exact hl r hr
  fun_induction multiply ls with
  | case1 => exact .nil
  | case2 => exact List.pairwise_singleton _ _
  | case3 left right rest _ ih =>
    obtain ⟨hleft, hrest⟩ := List.pairwise_cons.1 h
    have hright : ∀ r ∈ right :: rest, right.start ≤ r.start := by
      simpa using (List.pairwise_cons.1 hrest).1
    refine .cons ?_ (.cons ?_ (ih hrest))
    · intro m hm
      rcases List.mem_cons.1 hm with rfl | hm
      · exact hleft right (.head _)
      · exact hle hleft hm
    · exact fun m hm => hle hright hm
  | case4 left right rest _ ih =>
    obtain ⟨hleft, hrest⟩ := List.pairwise_cons.1 h
    exact .cons (fun m hm => hle hleft hm) (ih hrest)

/-- Among lexemes that are not empty, an empty one is a `*` between two that are multiplied. -/
theorem neighbours_of_mem_multiply (hls : ∀ l ∈ ls, l.start ≠ l.stop) {before after : List Lexeme}
    {l : Lexeme} (hsplit : multiply ls = before ++ l :: after) (hl : l.start = l.stop) :
    ∃ before' left right after', before = before' ++ [left] ∧ after = right :: after' ∧
      juxtaposed left right = true ∧ l = times right := by
  have absurd_mem (h : l ∈ ls) : False := hls l h hl
  fun_induction multiply ls generalizing before with
  | case1 => simp at hsplit
  | case2 last =>
    have hmem : l ∈ [last] := hsplit ▸ List.mem_append_right _ (.head _)
    exact (absurd_mem hmem).elim
  | case3 left right rest hjuxtaposed ih =>
    rcases List.cons_eq_append_iff.1 hsplit with ⟨-, hcons⟩ | ⟨front, rfl, htail⟩
    · obtain ⟨rfl, -⟩ := List.cons.inj hcons
      exact (absurd_mem (.head _)).elim
    rcases List.cons_eq_append_iff.1 htail with ⟨rfl, hcons⟩ | ⟨front, rfl, hrest⟩
    · obtain ⟨rfl, rfl⟩ := List.cons.inj hcons
      obtain ⟨after, hafter⟩ := List.head?_eq_some_iff.1 (head?_multiply (right :: rest))
      exact ⟨[], left, right, after, rfl, hafter, hjuxtaposed, rfl⟩
    · obtain ⟨front, l', right', after', rfl, hneighbours⟩ :=
        ih (fun m hm => hls m (.tail _ hm)) hrest fun h => absurd_mem (.tail _ h)
      exact ⟨left :: times right :: front, l', right', after', rfl, hneighbours⟩
  | case4 left right rest _ ih =>
    rcases List.cons_eq_append_iff.1 hsplit with ⟨-, hcons⟩ | ⟨front, rfl, htail⟩
    · obtain ⟨rfl, -⟩ := List.cons.inj hcons
      exact (absurd_mem (.head _)).elim
    · obtain ⟨front, l', right', after', rfl, hneighbours⟩ :=
        ih (fun m hm => hls m (.tail _ hm)) htail fun h => absurd_mem (.tail _ h)
      exact ⟨left :: front, l', right', after', rfl, hneighbours⟩

end Multiply

/-- How the lexemes of a text lie in it, where `written` are those that are read from characters. -/
structure Cover (text : String) (written ls : List Lexeme) : Prop where
  bounds : ∀ l ∈ ls, l.start ≤ l.stop ∧ l.stop ≤ text.utf8ByteSize ∧
    String.Pos.Raw.IsValid text ⟨l.start⟩ ∧ String.Pos.Raw.IsValid text ⟨l.stop⟩
  ordered : ls.Pairwise (·.start ≤ ·.start)
  /-- All but the lexemes that are read from characters are empty. -/
  nonempty : ls.filter (fun l => l.start != l.stop) = written
  /-- An empty lexeme is a `*` between two that are multiplied, where the second one begins. -/
  empty : ∀ before l after, ls = before ++ l :: after → l.start = l.stop →
    ∃ before' left right after', before = before' ++ [left] ∧ after = right :: after' ∧
      juxtaposed left right = true ∧ l = ⟨.operator .mul, right.start, right.start⟩
  ends : ∀ l ∈ ls, l.start < l.stop →
    (∃ c, Text.At text l.start c ∧ Text.isBlank c = false) ∧
    ∃ p c, Text.At text p c ∧ Text.isBlank c = false ∧ p + c.utf8Size = l.stop
  /-- All bytes of a character that is not blank lie in a single lexeme, but for a `-` that lies in
  the two lexemes of a factor `-1`. -/
  covered : ∀ p c, Text.At text p c → Text.isBlank c = false →
    (∃ l, ∀ b, p ≤ b → b < p + c.utf8Size → ls.filter (·.covers b) = [l]) ∨
    c = '-' ∧ ls.filter (·.covers p) =
      [⟨.operand (.number .minusOne), p, p + 1⟩, ⟨.operator .mul, p, p + 1⟩]

section Cover

variable {text : String} {ls : List Lexeme}

/-- A glyph begins and ends with a character. -/
theorem exists_at_of_mem_glyphs {g : Glyph} (h : g ∈ glyphs text) :
    ∃ c, Text.At text g.start c ∧ Text.isBlank c = false ∧ g.start + c.utf8Size = g.stop := by
  obtain ⟨p, c, hat, hblank, rfl⟩ := mem_glyphs_iff.1 h
  exact ⟨c, hat, hblank, rfl⟩

theorem Tiles.ends (h : Tiles (glyphs text) ls) {l : Lexeme} (hl : l ∈ ls) :
    (∃ c, Text.At text l.start c ∧ Text.isBlank c = false) ∧
    ∃ p c, Text.At text p c ∧ Text.isBlank c = false ∧ p + c.utf8Size = l.stop := by
  obtain ⟨⟨first, hfirst, hstart⟩, ⟨last, hlast, hstop⟩, -⟩ :=
    h.bounds (Glyph.ordered_glyphs text) hl
  obtain ⟨c, hat, hblank, -⟩ := exists_at_of_mem_glyphs hfirst
  obtain ⟨d, hat', hblank', hsize⟩ := exists_at_of_mem_glyphs hlast
  exact ⟨⟨c, hstart ▸ hat, hblank⟩, last.start, d, hat', hblank', hsize.trans hstop.symm⟩

theorem Tiles.covered (h : Tiles (glyphs text) ls) {p : Nat} {c : Char} (hat : Text.At text p c)
    (hblank : Text.isBlank c = false) :
    (∃ l, ∀ b, p ≤ b → b < p + c.utf8Size → ls.filter (·.covers b) = [l]) ∨
    c = '-' ∧ ls.filter (·.covers p) =
      [⟨.operand (.number .minusOne), p, p + 1⟩, ⟨.operator .mul, p, p + 1⟩] := by
  have hg := mem_glyphs_iff.2 ⟨p, c, hat, hblank, rfl⟩
  obtain ⟨used, read, hused, hread, hcovers⟩ := h.filter_covers (Glyph.ordered_glyphs text) hg
  cases hread with
  | token => exact .inl ⟨_, hcovers⟩
  | negation hminus hrun =>
    subst hrun
    obtain rfl := List.mem_singleton.1 hused
    obtain rfl := Text.eq_minus_of_toLower hminus
    exact .inr ⟨rfl, hcovers p (Nat.le_refl p) (Nat.lt_succ_self p)⟩

theorem Tiles.cover (h : Tiles (glyphs text) ls) : Cover text ls (multiply ls) := by
  have hne : ∀ l ∈ ls, l.start ≠ l.stop := fun l hl =>
    Nat.ne_of_lt (h.bounds (Glyph.ordered_glyphs text) hl).2.2
  have hvalid : ∀ l ∈ ls, l.start ≤ l.stop ∧ String.Pos.Raw.IsValid text ⟨l.start⟩ ∧
      String.Pos.Raw.IsValid text ⟨l.stop⟩ := by
    intro l hl
    obtain ⟨⟨c, hat, -⟩, p, d, hat', -, hstop⟩ := h.ends hl
    have hlt := (h.bounds (Glyph.ordered_glyphs text) hl).2.2
    exact ⟨Nat.le_of_lt hlt, hat.isValid.1, hstop ▸ hat'.isValid.2⟩
  refine ⟨?_, pairwise_multiply (h.pairwise (Glyph.ordered_glyphs text)), ?_, ?_, ?_, ?_⟩
  · intro l hl
    obtain ⟨hle, hstart, hstop⟩ : l.start ≤ l.stop ∧ String.Pos.Raw.IsValid text ⟨l.start⟩ ∧
        String.Pos.Raw.IsValid text ⟨l.stop⟩ := by
      rcases mem_multiply hl with hl | ⟨right, hright, rfl⟩
      · exact hvalid l hl
      · obtain ⟨-, hstart, -⟩ := hvalid right hright
        exact ⟨Nat.le_refl _, hstart, hstart⟩
    exact ⟨hle, hstop.le_utf8ByteSize, hstart, hstop⟩
  · rw [filter_multiply fun l => by simp [times]]
    exact List.filter_eq_self.2 fun l hl => by simpa using hne l hl
  · intro before l after hsplit hl
    exact neighbours_of_mem_multiply hne hsplit hl
  · intro l hl hlt
    rcases mem_multiply hl with hl | ⟨right, -, rfl⟩
    · exact h.ends hl
    · exact absurd hlt (Nat.lt_irrefl _)
  · intro p c hat hblank
    have hfilter (b : Nat) : (multiply ls).filter (·.covers b) = ls.filter (·.covers b) := by
      refine filter_multiply fun l => ?_
      rw [← Bool.not_eq_true, Spanned.covers_iff]
      simp only [times]
      omega
    simp only [hfilter]
    exact h.covered hat hblank

end Cover

end Lexeme

/-- The lexemes of a text lie in it in order and take up all of its characters but the blanks, none
of them twice but a `-` that stands for a factor `-1`. Only a `*` that is not written is empty. -/
theorem Formula.cover_of_lexemes {f : Formula} {ls : List Lexeme} (h : f.lexemes = .ok ls) :
    ∃ written, Lexeme.scan f.depthLimit (Lexeme.innerReader f.depthLimit f.depthLimit) none
        (glyphs f.text) = .ok written ∧
      Lexeme.multiply written = ls ∧ Lexeme.Cover f.text written ls := by
  obtain ⟨written, hscans, rfl⟩ := lexemes_eq_ok_iff.1 h
  exact ⟨written, Lexeme.scan_eq_ok_iff.2 hscans, rfl, hscans.tiles.cover⟩

/-- In `-x (I)` the `-` is read twice, and the `*` before the parenthesis is read from nothing. -/
theorem Formula.cover_of_lexemes_negation :
    (Formula.mk "-x (I)" 0).lexemes = .ok [⟨.operand (.number .minusOne), 0, 1⟩,
      ⟨.operator .mul, 0, 1⟩, ⟨.operand .free, 1, 2⟩, ⟨.operator .mul, 3, 3⟩, ⟨.opening, 3, 4⟩,
      ⟨.operand (.number .imaginaryUnit), 4, 5⟩, ⟨.closing, 5, 6⟩] ∧
    Lexeme.Cover "-x (I)" [⟨.operand (.number .minusOne), 0, 1⟩, ⟨.operator .mul, 0, 1⟩,
      ⟨.operand .free, 1, 2⟩, ⟨.opening, 3, 4⟩, ⟨.operand (.number .imaginaryUnit), 4, 5⟩,
      ⟨.closing, 5, 6⟩] [⟨.operand (.number .minusOne), 0, 1⟩,
      ⟨.operator .mul, 0, 1⟩, ⟨.operand .free, 1, 2⟩, ⟨.operator .mul, 3, 3⟩, ⟨.opening, 3, 4⟩,
      ⟨.operand (.number .imaginaryUnit), 4, 5⟩, ⟨.closing, 5, 6⟩] := by
  have hlexemes : (Formula.mk "-x (I)" 0).lexemes = .ok [⟨.operand (.number .minusOne), 0, 1⟩,
      ⟨.operator .mul, 0, 1⟩, ⟨.operand .free, 1, 2⟩, ⟨.operator .mul, 3, 3⟩, ⟨.opening, 3, 4⟩,
      ⟨.operand (.number .imaginaryUnit), 4, 5⟩, ⟨.closing, 5, 6⟩] := by
    decide +kernel
  obtain ⟨written, -, -, hcover⟩ := cover_of_lexemes hlexemes
  refine ⟨hlexemes, ?_⟩
  have hwritten := hcover.nonempty
  subst hwritten
  exact hcover

end ComplexFormula
