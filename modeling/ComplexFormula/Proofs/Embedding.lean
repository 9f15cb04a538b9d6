import ComplexFormula.Proofs.Portability
import ComplexFormula.Proofs.Replacement
import Mathlib.Data.List.Basic

/-!
A text read inside another one. The glyphs of a text can stand in parentheses in place of any
variable of another text: the scanner reads them there as it reads them alone, and goes on behind
them as it goes on behind the variable.
-/

namespace ComplexFormula

/-- Whether the token is the variable. -/
def Token.isFree : Token Atom → Bool
  | .operand .free => true
  | _ => false

/-- The token that a character of the class is by itself, whatever stands around it. A `-` is none,
for it may be a sign. -/
def CharClass.token? : CharClass → Option (Token Atom)
  | free => some (.operand .free)
  | imaginaryUnit => some (.operand (.number .imaginaryUnit))
  | opening => some .opening
  | closing => some .closing
  | operator o => if o = .sub then none else some (.operator o)
  | _ => none

namespace Glyph

theorem charClass_eq_free_iff {g : Glyph} : g.charClass = .free ↔ g.item = 'x' := by
  constructor
  · intro h
    unfold charClass at h
    repeat' split at h
    all_goals simp_all
  · intro h
    simp [charClass, isNumeral, h]

end Glyph

/-- A call is not the variable. -/
theorem Atom.ne_free_of_call {name : String} {arguments : List Atom} {position : Position}
    {a : Atom} (h : call name arguments position = .ok a) : a ≠ .free := by
  rcases Builtin.call_eq_ok_iff.1 h with ⟨f, b, -, -, rfl⟩ | ⟨f, b, c, -, -, rfl⟩ <;> nofun

namespace Lexeme

theorem lexemes_of_readLiteral {start : Nat} {negative : Bool} {first : Glyph} {rest : List Glyph}
    {r : Reading} (h : readLiteral start negative first rest = .ok r) :
    ∃ z stop, r.lexemes = [⟨.operand (.number z), start, stop⟩] := by
  simp only [readLiteral] at h
  repeat' split at h
  all_goals cases h
  all_goals exact ⟨_, _, rfl⟩

/-- The lexemes of a step start where the step does, and one is the variable only if the step reads
an `x`. -/
theorem lexemes_of_readOne {limit : Nat} {inner : Option Reader} {before : Option Glyph} {g : Glyph}
    {rest : List Glyph} {r : Reading} (h : readOne limit inner before g rest = .ok r) {l : Lexeme}
    (hl : l ∈ r.lexemes) : l.start = g.start ∧ (l.item.isFree = true → g.item = 'x') := by
  have single {token : Token Atom} (hr : .ok (.single token g rest) = Except.ok (ε := ParseError) r)
      (htoken : token.isFree = true → g.item = 'x') :
      l.start = g.start ∧ (l.item.isFree = true → g.item = 'x') := by
    cases hr
    obtain rfl := List.mem_singleton.1 hl
    exact ⟨rfl, htoken⟩
  have number {negative : Bool} {first : Glyph} {after : List Glyph}
      (hr : readLiteral g.start negative first after = .ok r) :
      l.start = g.start ∧ (l.item.isFree = true → g.item = 'x') := by
    obtain ⟨z, stop, hr⟩ := lexemes_of_readLiteral hr
    rw [hr] at hl
    obtain rfl := List.mem_singleton.1 hl
    exact ⟨rfl, nofun⟩
  unfold readOne at h
  cases hclass : g.charClass <;> simp only [hclass] at h
  case numeral => exact number h
  case free => exact single h fun _ => Glyph.charClass_eq_free_iff.1 hclass
  case letter =>
    obtain ⟨_, _, _, arguments, _, a, -, -, -, -, -, ha, rfl⟩ := readCall_eq_ok_iff.1 h
    obtain rfl := List.mem_singleton.1 hl
    refine ⟨rfl, ?_⟩
    intro hfree
    cases a with
    | free => exact absurd rfl (Atom.ne_free_of_call ha)
    | _ => cases hfree
  case operator o =>
    split at h
    · cases hnumeral : rest.head?.any Glyph.isNumeral with
      | true =>
        obtain ⟨next, hnext, hnumeral⟩ := (Option.any_eq_true _ _).1 hnumeral
        obtain ⟨after, rfl⟩ := List.head?_eq_some_iff.1 hnext
        rw [readSign_of_isNumeral hnumeral] at h
        exact number h
      | false =>
        rw [readSign_of_not_isNumeral hnumeral] at h
        cases h
        split at hl
        · simp only [List.mem_cons, List.not_mem_nil, or_false] at hl
          rcases hl with rfl | rfl <;> exact ⟨rfl, nofun⟩
        · obtain rfl := List.mem_singleton.1 hl
          exact ⟨rfl, nofun⟩
    · exact single h nofun
  case foreign => cases h
  all_goals exact single h nofun

/-! ### Glyphs in place of glyphs -/

/-- Nothing follows, or the parenthesis is closed. -/
def Stops (gs : List Glyph) : Prop :=
  ∀ g ∈ gs.head?, g.item = ')'

/-- The glyphs are some characters in parentheses, which stand for an `x`. -/
def InParentheses (body : List Char) (g : Glyph) (new : List Glyph) : Prop :=
  g.item = 'x' ∧ ∃ opening inside closing, new = opening :: (inside ++ [closing]) ∧
    opening.item = '(' ∧ inside.map (·.item) = body ∧ closing.item = ')'

theorem isSome_imaginaryMark? (gs : List Glyph) : (imaginaryMark? gs).isSome =
    (gs.head?.any (·.item == 'i') ||
      gs.head?.any (·.item == '*') && gs.tail.head?.any (·.item == 'i')) := by
  unfold imaginaryMark?
  repeat' split
  all_goals simp_all

section InParentheses

variable {isPlace : Nat → Bool} {body : List Char} {gs gs' rest' : List Glyph}

/-- What tells an `x` and a `(` from nothing but each other shows at the front of both runs or of
neither. -/
theorem head?_any_inParentheses (h : Replaces isPlace (InParentheses body) gs gs')
    (hrest : Stops rest') {p : Glyph → Bool}
    (hp : ∀ {g g' : Glyph}, g'.item = g.item → p g' = p g)
    (hx : p ⟨'x', 0, 0⟩ = p ⟨'(', 0, 0⟩) (hclosing : p ⟨')', 0, 0⟩ = false) :
    (gs' ++ rest').head?.any p = gs.head?.any p := by
  refine h.head?_any hp ?_ rest' ?_
  · rintro g _ ⟨hg, opening, inside, closing, rfl, hopening, -⟩
    exact ⟨_, _, rfl, by rw [hp (g := ⟨'(', 0, 0⟩) hopening, ← hx, hp (g := ⟨'x', 0, 0⟩) hg]⟩
  · cases rest' with
    | nil => rfl
    | cons g rest' =>
      have hg : g.item = ')' := hrest g rfl
      simpa [hp (g := ⟨')', 0, 0⟩) hg] using hclosing

theorem sameOutlook_inParentheses (h : Replaces isPlace (InParentheses body) gs gs')
    (hrest : Stops rest') : SameOutlook gs (gs' ++ rest') := by
  have hi {us us' : List Glyph} (hus : Replaces isPlace (InParentheses body) us us') :=
    head?_any_inParentheses hus hrest (p := (·.item == 'i')) (fun hg => by rw [hg]) rfl rfl
  have hstar :=
    head?_any_inParentheses h hrest (p := (·.item == '*')) (fun hg => by rw [hg]) rfl rfl
  refine ⟨⟨head?_any_inParentheses h hrest Glyph.isNumeral_congr rfl rfl, ?_⟩,
    head?_any_inParentheses h hrest Glyph.isNegatable_congr rfl rfl⟩
  rw [isSome_imaginaryMark?, isSome_imaginaryMark?, hi h, hstar]
  cases h with
  | nil => rfl
  | keep _ _ h => simp only [List.cons_append, List.tail_cons, hi h]
  | place _ hnew =>
    obtain ⟨hg, -⟩ := hnew
    simp [hg]

end InParentheses

/-! ### Scanning what was put in place -/

/-- The places are those of variables that are read, if there are any places. -/
def Placed (isPlace : Nat → Bool) (gs : List Glyph) (ls : List Lexeme) : Prop :=
  (∀ o, isPlace o = false) ∨ gs.Pairwise (·.start < ·.start) ∧
    ∀ g ∈ gs, isPlace g.start = true → ∃ l ∈ ls, l.item.isFree = true ∧ l.start = g.start

/-- The tokens that are read in place of a lexeme. -/
def expand (isPlace : Nat → Bool) (inside : List (Token Atom)) (l : Lexeme) : List (Token Atom) :=
  if isPlace l.start && l.item.isFree then .opening :: (inside ++ [.closing]) else [l.item]

/-- Wherever an operand is awaited and the characters are followed by a parenthesis that closes, if
by anything, they are read as the tokens, and reading goes on behind them. -/
def Embeds (limit : Nat) (inner : Option Reader) (body : List Char) (ts : List (Token Atom)) :
    Prop :=
  ∀ ⦃before : Option Glyph⦄ ⦃gs rest : List Glyph⦄ ⦃tail : List Lexeme⦄,
    awaitsOperand before = true → gs.map (·.item) = body → Stops rest →
    (∀ before, Scans limit inner before rest tail) →
      ∃ ls, ls.map (·.item) = ts ∧ Scans limit inner before (gs ++ rest) (ls ++ tail)

section Starts

variable {isPlace : Nat → Bool} {g u : Glyph} {used rest : List Glyph} {ls tail : List Lexeme}
  {l : Lexeme}

/-- What starts where a glyph stands that a step leaves is not read in that step. -/
theorem mem_of_start_eq (hsorted : (g :: (used ++ rest)).Pairwise (·.start < ·.start))
    (hls : ∀ l ∈ ls, l.start = g.start) (hl : l ∈ ls ++ tail) (hu : u ∈ used ++ rest)
    (hstart : l.start = u.start) : l ∈ tail := by
  have hlt := List.rel_of_pairwise_cons hsorted hu
  rcases List.mem_append.1 hl with hl | hl
  · have := hls l hl
    omega
  · exact hl

/-- Nothing starts where a glyph stands that a step uses up behind its first one. -/
theorem start_ne_of_mem_used (hsorted : (g :: (used ++ rest)).Pairwise (·.start < ·.start))
    (hls : ∀ l ∈ ls, l.start = g.start) (htail : ∀ l ∈ tail, ∃ u ∈ rest, l.start = u.start)
    (hl : l ∈ ls ++ tail) (hu : u ∈ used) : l.start ≠ u.start := by
  intro hstart
  obtain ⟨v, hv, hstart'⟩ :=
    htail l (mem_of_start_eq hsorted hls hl (List.mem_append_left _ hu) hstart)
  have := (List.pairwise_append.1 (List.pairwise_cons.1 hsorted).2).2.2 u hu v hv
  omega

theorem Placed.drop (used : List Glyph) (h : Placed isPlace (g :: (used ++ rest)) (ls ++ tail))
    (hls : ∀ l ∈ ls, l.start = g.start) : Placed isPlace rest tail := by
  refine h.imp_right ?_
  rintro ⟨hsorted, hplaces⟩
  refine ⟨(List.pairwise_append.1 (List.pairwise_cons.1 hsorted).2).2.1, ?_⟩
  intro u hu hplace
  have hrest : u ∈ used ++ rest := List.mem_append_right _ hu
  obtain ⟨l, hl, hfree, hstart⟩ := hplaces u (.tail _ hrest) hplace
  exact ⟨l, mem_of_start_eq hsorted hls hl hrest hstart, hfree, hstart⟩

theorem Placed.of_mem_used (h : Placed isPlace (g :: (used ++ rest)) (ls ++ tail))
    (hls : ∀ l ∈ ls, l.start = g.start) (htail : ∀ l ∈ tail, ∃ u ∈ rest, l.start = u.start) :
    ∀ u ∈ used, isPlace u.start = false := by
  intro u hu
  rcases h with hnone | ⟨hsorted, hplaces⟩
  · exact hnone _
  rw [← Bool.not_eq_true]
  intro hplace
  -- the variable that is read there starts before or behind it
  obtain ⟨l, hl, -, hstart⟩ := hplaces u (.tail _ (List.mem_append_left _ hu)) hplace
  exact start_ne_of_mem_used hsorted hls htail hl hu hstart

end Starts

section Step

variable {limit : Nat} {inner : Option Reader} {before : Option Glyph} {g : Glyph}
  {rest : List Glyph}

/-- A character that is a token by itself is read as that. -/
theorem readOne_of_item {c : Char} {token : Token Atom} (hg : g.item = c)
    (hc : (Glyph.charClass ⟨c, 0, 0⟩).token? = some token) :
    readOne limit inner before g rest = .ok (.single token g rest) := by
  rw [← Glyph.charClass_congr (g := ⟨c, 0, 0⟩) hg] at hc
  unfold readOne
  cases hclass : g.charClass with
  | operator o =>
    rw [hclass, CharClass.token?] at hc
    split at hc
    · cases hc
    · next hsub =>
      cases hc
      exact if_neg fun hsign => hsub hsign.1
  | _ =>
    rw [hclass] at hc
    cases hc
    try rfl

end Step

/-- What stands in parentheses is read as it is anywhere, and reading goes on behind them as it does
behind an operand. -/
theorem Embeds.group {limit : Nat} {inner : Option Reader} {before : Option Glyph}
    {body : List Char} {ts : List (Token Atom)} (h : Embeds limit inner body ts)
    {opening closing : Glyph} {gs rest : List Glyph} {tail : List Lexeme}
    (hopening : opening.item = '(') (hgs : gs.map (·.item) = body) (hclosing : closing.item = ')')
    (htail : Scans limit inner (some closing) rest tail) :
    ∃ ls, ls.map (·.item) = ts ∧ Scans limit inner before (opening :: (gs ++ closing :: rest))
      (opening.map (fun _ => .opening) :: (ls ++ closing.map (fun _ => .closing) :: tail)) := by
  have hclosed (b : Option Glyph) : Scans limit inner b (closing :: rest)
      (closing.map (fun _ => .closing) :: tail) :=
    .cons (readOne_of_item hclosing rfl) htail
  have hawaits : awaitsOperand (some opening) = true := by
    simp [awaitsOperand, Glyph.endsOperand, hopening]
  have hstops : Stops (closing :: rest) := by
    rintro _ ⟨⟩
    exact hclosing
  obtain ⟨ls, hls, hscans⟩ := h hawaits hgs hstops hclosed
  exact ⟨ls, hls, .cons (readOne_of_item hopening rfl) hscans⟩

section Scans

variable {limit limit' : Nat} {inner inner' : Option Reader} {before : Option Glyph}
  {gs : List Glyph} {ls : List Lexeme}

section

variable (hinner : InnerRefines inner inner')

include hinner

/-- Each lexeme starts at a glyph, and the variable at an `x`. -/
theorem Scans.exists_start (h : Scans limit inner before gs ls) {l : Lexeme} (hl : l ∈ ls) :
    ∃ g ∈ gs, l.start = g.start ∧ (l.item.isFree = true → g.item = 'x') := by
  induction h with
  | nil => cases hl
  | @cons before g rest r tail h _ ih =>
    rcases List.mem_append.1 hl with hl | hl
    · exact ⟨g, .head _, lexemes_of_readOne h hl⟩
    · obtain ⟨g', hg', hstart⟩ := ih hl
      obtain ⟨used, hused, -⟩ := readOne_portable h limit hinner rfl rfl
      rw [hused]
      exact ⟨g', .tail _ (List.mem_append_right _ hg'), hstart⟩

/-- What is read from the second run is what is read from the first, with the tokens `inside` in
parentheses in place of the variables at the places. -/
theorem Scans.expand {isPlace : Nat → Bool} {body : List Char} {inside : List (Token Atom)}
    (hbody : (∀ o, isPlace o = false) ∨ Embeds limit' inner' body inside)
    (h : Scans limit inner before gs ls) (hplaced : Placed isPlace gs ls) {gs' rest' : List Glyph}
    {tail' : List Lexeme} {before' : Option Glyph}
    (hexpands : Replaces isPlace (InParentheses body) gs gs')
    (hbefore : awaitsOperand before' = awaitsOperand before) (hrest : Stops rest')
    (htail : ∀ before, Scans limit' inner' before rest' tail') :
    ∃ ls', ls'.map (·.item) = ls.flatMap (Lexeme.expand isPlace inside) ∧
      Scans limit' inner' before' (gs' ++ rest') (ls' ++ tail') := by
  induction h generalizing gs' before' with
  | nil =>
    cases hexpands
    exact ⟨[], rfl, htail _⟩
  | @cons before g rest r tail h hscans ih =>
    have hls : ∀ l ∈ r.lexemes, l.start = g.start := fun l hl => (lexemes_of_readOne h hl).1
    cases hexpands with
    | @keep _ g' _ gs' hplace hg hexpands =>
      obtain ⟨used, rfl, hportable⟩ := readOne_portable h limit' hinner hbefore hg
      have hused : ∀ u ∈ used, isPlace u.start = false := hplaced.of_mem_used hls fun l hl =>
        (hscans.exists_start hinner hl).imp fun _ hu => ⟨hu.1, hu.2.1⟩
      obtain ⟨used', rest₁, rfl, hitems, hexpands⟩ := hexpands.append hused
      obtain ⟨r', hr', hlexemes, hlast, hr'rest⟩ :=
        hportable used' (rest₁ ++ rest') hitems (sameOutlook_inParentheses hexpands hrest)
      obtain ⟨ls', hls', hscans'⟩ :=
        ih (hplaced.drop used hls) hexpands (awaitsOperand_congr hlast)
      refine ⟨r'.lexemes ++ ls', ?_, ?_⟩
      · have hkept : r.lexemes.flatMap (Lexeme.expand isPlace inside) = r.lexemes.map (·.item) := by
          rw [List.map_eq_flatMap]
          refine List.flatMap_congr fun l hl => ?_
          simp [Lexeme.expand, hls l hl, hplace]
        rw [List.map_append, List.flatMap_append, hls', hlexemes, hkept]
      · rw [List.cons_append, List.append_assoc, List.append_assoc]
        exact .cons hr' (hr'rest ▸ hscans')
    | @place _ _ _ gs' hplace hnew hexpands =>
      obtain ⟨hg, opening, inside', closing, rfl, hopening, hinside, hclosing⟩ := hnew
      have hr : readOne limit inner before g rest = .ok (.single (.operand .free) g rest) :=
        readOne_of_item hg rfl
      obtain rfl := Except.ok.inj (h.symm.trans hr)
      obtain hbody := hbody.resolve_left fun hnone => by simp [hnone] at hplace
      have hdrop : Placed isPlace rest tail := Placed.drop [] hplaced hls
      have hlast : awaitsOperand (some closing) = awaitsOperand (some g) := by
        simp [awaitsOperand, Glyph.endsOperand, hclosing, hg]
      obtain ⟨ls', hls', hscans'⟩ := ih hdrop hexpands hlast
      obtain ⟨lsb, hlsb, hinside'⟩ := hbody.group hopening hinside hclosing hscans'
      refine ⟨opening.map (fun _ => .opening) :: (lsb ++ closing.map (fun _ => .closing) :: ls'),
        ?_, ?_⟩
      · simp [Lexeme.expand, Reading.single, Spanned.map, Token.isFree, hplace, hlsb, hls']
      · simpa using hinside'

/-- What is read alone is read in the same way behind anything that awaits an operand. -/
theorem Scans.embeds (hbefore : awaitsOperand before = true) (h : Scans limit inner before gs ls) :
    Embeds limit' inner' (gs.map (·.item)) (ls.map (·.item)) := by
  intro before' gs' rest' tail' hawaits hitems hrest htail
  have hplaced : Placed (fun _ => false) gs ls := .inl fun _ => rfl
  have hexpands : Replaces (fun _ => false) (InParentheses []) gs gs' := .of_items hitems
  have hnone : (∀ _ : Nat, false = false) ∨ Embeds limit' inner' [] [] := .inl fun _ => rfl
  obtain ⟨ls', hls', hscans⟩ :=
    h.expand hinner hnone hplaced hexpands (hawaits.trans hbefore.symm) hrest htail
  refine ⟨ls', ?_, hscans⟩
  rw [hls', List.map_eq_flatMap]
  rfl

end

end Scans

end Lexeme

end ComplexFormula
