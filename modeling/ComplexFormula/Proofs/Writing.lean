import ComplexFormula.Proofs.Nesting

/-!
How operands are written: a grammar of characters for numbers, the variable and calls. Whatever the
grammar derives is read back as one operand, wherever an operand is awaited and no more of a number
follows.
-/

namespace ComplexFormula

/-! ### Literals -/

namespace Decimal

/-- Digits with at most one point, and at least one digit. -/
structure IsLiteral (cs : List Char) : Prop where
  numeral : ∀ c ∈ cs, c.isDigit = true ∨ c = '.'
  exists_digit : ∃ c ∈ cs, c.isDigit = true
  count_point : cs.count '.' ≤ 1

variable {cs : List Char}

theorem not_isDigit_point : ¬ Char.isDigit '.' = true := by decide

theorem count_point_of_digits (h : ∀ c ∈ cs, c.isDigit = true) : cs.count '.' = 0 :=
  List.count_eq_zero.2 fun hmem => not_isDigit_point (h _ hmem)

theorem isLiteral_iff_of_digits (h : ∀ c ∈ cs, c.isDigit = true) : IsLiteral cs ↔ cs ≠ [] := by
  constructor
  · rintro ⟨-, ⟨c, hc, -⟩, -⟩ rfl
    cases hc
  · intro hne
    obtain ⟨c, hc⟩ := List.exists_mem_of_ne_nil cs hne
    exact ⟨fun c hc => .inl (h c hc), ⟨c, hc, h c hc⟩, by simp [count_point_of_digits h]⟩

/-- Behind the first digits a point has to follow and then no more than digits. -/
theorem isLiteral_append_cons_iff {whole places : List Char} {c : Char}
    (hwhole : ∀ d ∈ whole, d.isDigit = true) (hc : ¬ c.isDigit = true) :
    IsLiteral (whole ++ c :: places) ↔
      c = '.' ∧ (∀ d ∈ places, d.isDigit = true) ∧ whole ++ places ≠ [] := by
  constructor
  · rintro ⟨hnumeral, ⟨d, hd, hdigit⟩, hcount⟩
    obtain rfl : c = '.' := (hnumeral c (by simp)).resolve_left hc
    have hnone : '.' ∉ places := by
      rw [List.count_append, List.count_cons_self, count_point_of_digits hwhole] at hcount
      exact List.count_eq_zero.1 (by omega)
    refine ⟨rfl, fun p hp => (hnumeral p (by simp [hp])).resolve_right ?_, ?_⟩
    · rintro rfl
      exact hnone hp
    · rintro hnil
      obtain ⟨rfl, rfl⟩ := List.append_eq_nil_iff.1 hnil
      obtain rfl := List.mem_singleton.1 hd
      exact hc hdigit
  · rintro ⟨rfl, hplaces, hne⟩
    obtain ⟨d, hd⟩ := List.exists_mem_of_ne_nil _ hne
    have hdigits : ∀ d ∈ whole ++ places, d.isDigit = true :=
      List.forall_mem_append.2 ⟨hwhole, hplaces⟩
    refine ⟨fun p hp => ?_, ⟨d, ?_, hdigits d hd⟩, ?_⟩
    · rcases List.mem_append.1 hp with hp | hp
      · exact .inl (hwhole p hp)
      · exact (List.mem_cons.1 hp).symm.imp_left (hplaces p)
    · rcases List.mem_append.1 hd with hd | hd <;> simp [hd]
    · rw [List.count_append, List.count_cons_self, count_point_of_digits hwhole,
        count_point_of_digits hplaces]

/-- A float is read from the literals and from nothing else. -/
theorem isSome_read?_iff : (read? cs).isSome = true ↔ IsLiteral cs := by
  have hwhole : ∀ c ∈ cs.takeWhile Char.isDigit, c.isDigit = true :=
    List.all_eq_true.1 List.all_takeWhile
  have hsplit := List.takeWhile_append_dropWhile (p := Char.isDigit) (l := cs)
  have hpoint := List.head?_dropWhile_not Char.isDigit cs
  rw [read?]
  generalize cs.takeWhile Char.isDigit = whole, cs.dropWhile Char.isDigit = after
    at hwhole hsplit hpoint ⊢
  subst hsplit
  cases after with
  | nil =>
    rw [List.append_nil, isLiteral_iff_of_digits hwhole]
    cases whole <;> simp
  | cons c places =>
    rw [isLiteral_append_cons_iff hwhole (by simpa using hpoint)]
    simp only [List.all_eq_true, List.isEmpty_iff]
    split <;> simp_all

/-- The float that a literal writes. -/
def IsLiteral.value (h : IsLiteral cs) : Float :=
  (read? cs).get (isSome_read?_iff.2 h)

theorem IsLiteral.read?_eq (h : IsLiteral cs) : read? cs = some h.value :=
  (Option.some_get _).symm

theorem isLiteral_of_read? {v : Float} (h : read? cs = some v) :
    ∃ hcs : IsLiteral cs, hcs.value = v :=
  ⟨isSome_read?_iff.1 (by rw [h]; rfl), by simp [IsLiteral.value, h]⟩

end Decimal

/-! ### Operands -/

namespace Atom

/-- The sign in front of a number. -/
def sign (negative : Bool) : List Char :=
  if negative then ['-'] else []

/-- The value of a number behind its sign. -/
def signed (negative : Bool) (magnitude : Float) : Float :=
  if negative then -magnitude else magnitude

/-- The characters write an operand: the variable, the imaginary unit, a number with a sign or
without, the same with a mark that makes it imaginary, or a function with its arguments, which are
written in the same way. -/
inductive Written : List Char → Atom → Prop
  | free : Written ['x'] .free
  | imaginaryUnit : Written ['i'] (.number .imaginaryUnit)
  | real (negative : Bool) {digits : List Char} (h : Decimal.IsLiteral digits) :
      Written (sign negative ++ digits) (.number ⟨signed negative h.value, 0⟩)
  | imaginary (negative : Bool) {digits mark : List Char} (h : Decimal.IsLiteral digits)
      (hmark : mark = ['i'] ∨ mark = ['*', 'i']) :
      Written (sign negative ++ (digits ++ mark)) (.number ⟨0, signed negative h.value⟩)
  | unary (f : Builtin.Unary) {cs : List Char} {a : Atom} (h : Written cs a) :
      Written (f.name.toList ++ '(' :: (cs ++ [')'])) (.unary f a)
  | binary (f : Builtin.Binary) {cs ds : List Char} {a b : Atom} (ha : Written cs a)
      (hb : Written ds b) :
      Written (f.name.toList ++ '(' :: (cs ++ ',' :: (ds ++ [')']))) (.binary f a b)

end Atom

/-! ### Cutting out arguments -/

/-- Each parenthesis closes, and outside of them there are no commas unless all is nested in
others. -/
inductive Balanced : Bool → List Char → Prop
  | nil (nested : Bool) : Balanced nested []
  | char {nested : Bool} {c : Char} {cs : List Char} (hopening : c ≠ '(') (hclosing : c ≠ ')')
      (hcomma : nested = false → c ≠ ',') (h : Balanced nested cs) : Balanced nested (c :: cs)
  | group {nested : Bool} {cs ds : List Char} (hcs : Balanced true cs) (hds : Balanced nested ds) :
      Balanced nested ('(' :: (cs ++ ')' :: ds))

namespace Balanced

variable {nested : Bool} {cs ds : List Char}

theorem append (hcs : Balanced nested cs) (hds : Balanced nested ds) :
    Balanced nested (cs ++ ds) := by
  induction hcs with
  | nil => exact hds
  | char hopening hclosing hcomma _ ih => exact .char hopening hclosing hcomma (ih hds)
  | group hcs _ _ ih =>
    rw [List.cons_append, List.append_assoc, List.cons_append]
    exact .group hcs (ih hds)

/-- Nested in others, commas are no matter. -/
theorem nest (h : Balanced nested cs) : Balanced true cs := by
  induction h with
  | nil => exact .nil true
  | char hopening hclosing _ _ ih => exact .char hopening hclosing nofun ih
  | group hcs _ _ ih => exact .group hcs ih

theorem of_forall (h : ∀ c ∈ cs, c ≠ '(' ∧ c ≠ ')' ∧ c ≠ ',') : Balanced nested cs := by
  induction cs with
  | nil => exact .nil nested
  | cons c cs ih =>
    obtain ⟨⟨hopening, hclosing, hcomma⟩, hcs⟩ := List.forall_mem_cons.1 h
    exact .char hopening hclosing (fun _ => hcomma) (ih hcs)

end Balanced

namespace ArgumentList

variable {level : Nat} {g : Glyph} {rest : List Glyph}

theorem split?_of_opening (hg : g.item = '(') :
    split? level (g :: rest) = (split? (level + 1) rest).map (push g) := by
  simp [split?.eq_def level (g :: rest), hg]

theorem split?_of_closing (hg : g.item = ')') :
    split? (level + 1) (g :: rest) = (split? level rest).map (push g) := by
  simp [split?, hg]

theorem split?_of_part (hopening : g.item ≠ '(') (hclosing : g.item ≠ ')')
    (hcomma : g.item = ',' → level ≠ 0) :
    split? level (g :: rest) = (split? level rest).map (push g) := by
  rw [split?.eq_def level (g :: rest)]
  simp only [if_neg hopening, if_neg hclosing]
  exact if_neg fun h => hcomma h.1 h.2

/-- Some glyphs at the front of the first argument. -/
def prepend (gs : List Glyph) (a : ArgumentList) : ArgumentList :=
  { a with first := gs ++ a.first }

/-- Balanced glyphs are part of one argument. -/
theorem split?_append {nested : Bool} {cs : List Char} (h : Balanced nested cs) {gs : List Glyph}
    (hgs : gs.map (·.item) = cs) (hlevel : nested = true → level ≠ 0) :
    split? level (gs ++ rest) = (split? level rest).map (prepend gs) := by
  induction h generalizing gs level rest with
  | nil =>
    obtain rfl := List.map_eq_nil_iff.1 hgs
    exact Option.map_id'.symm
  | @char nested c cs hopening hclosing hcomma _ ih =>
    obtain ⟨g, gs, rfl, rfl, hcs⟩ := List.map_eq_cons_iff.1 hgs
    have hpart : g.item = ',' → level ≠ 0 := by
      intro hg
      cases nested with
      | false => exact absurd hg (hcomma rfl)
      | true => exact hlevel rfl
    rw [List.cons_append, split?_of_part hopening hclosing hpart, ih hcs hlevel, Option.map_map]
    rfl
  | group _ _ ihcs ihds =>
    obtain ⟨opening, gs, rfl, hopening, hgs⟩ := List.map_eq_cons_iff.1 hgs
    obtain ⟨inside, behind, rfl, hinside, hbehind⟩ := List.map_eq_append_iff.1 hgs
    obtain ⟨closing, behind, rfl, hclosing, hbehind⟩ := List.map_eq_cons_iff.1 hbehind
    rw [List.cons_append, List.append_assoc, List.cons_append, split?_of_opening hopening,
      ihcs hinside (fun _ => level.succ_ne_zero), split?_of_closing hclosing,
      ihds hbehind hlevel]
    simp only [Option.map_map]
    refine Option.map_congr fun a _ => ?_
    simp [push, prepend]

/-- The list of a single argument. -/
theorem split?_one {cs : List Char} (h : Balanced false cs) {gs : List Glyph}
    (hgs : gs.map (·.item) = cs) {closing : Glyph} (hclosing : closing.item = ')') :
    split? 0 (gs ++ closing :: rest) = some ⟨gs, [], closing, rest⟩ := by
  rw [split?_append h hgs nofun, split?, if_neg (by simp [hclosing]), if_pos hclosing]
  simp [prepend]

/-- One more argument in front of a list. -/
theorem split?_comma {cs : List Char} (h : Balanced false cs) {gs : List Glyph}
    (hgs : gs.map (·.item) = cs) {comma : Glyph} (hcomma : comma.item = ',')
    {a : ArgumentList} (hrest : split? 0 rest = some a) :
    split? 0 (gs ++ comma :: rest) = some { a with first := gs, others := a.all } := by
  rw [split?_append h hgs nofun, split?, if_neg (by simp [hcomma]), if_neg (by simp [hcomma]),
    if_pos ⟨hcomma, rfl⟩, hrest]
  simp [prepend, pushEmpty]

end ArgumentList

/-! ### The characters of an operand -/

/-- The name of a function begins like a call and has letters only. -/
theorem Builtin.letters_name (f : Builtin) :
    (∃ c cs, f.name.toList = c :: cs ∧ Glyph.charClass ⟨c, 0, 0⟩ = .letter) ∧
      ∀ c ∈ f.name.toList, c.isAlpha = true := by
  rcases f with f | f <;> cases f <;> exact ⟨⟨_, _, rfl, rfl⟩, List.all_eq_true.1 rfl⟩

theorem Decimal.IsLiteral.balanced {cs : List Char} (h : IsLiteral cs) : Balanced false cs := by
  refine .of_forall fun c hc => ?_
  rcases h.numeral c hc with hdigit | rfl
  · refine ⟨?_, ?_, ?_⟩ <;> (rintro rfl; revert hdigit; decide)
  · decide

theorem Builtin.balanced_name (f : Builtin) : Balanced false f.name.toList := by
  refine .of_forall fun c hc => ?_
  have hletter := f.letters_name.2 c hc
  refine ⟨?_, ?_, ?_⟩ <;> (rintro rfl; revert hletter; decide)

namespace Atom

theorem balanced_sign (negative : Bool) : Balanced false (sign negative) := by
  cases negative
  · exact .nil _
  · exact .of_forall (by simp [sign])

/-- What writes an operand closes its parentheses and has its commas inside of them. -/
theorem Written.balanced {cs : List Char} {a : Atom} (h : Written cs a) : Balanced false cs := by
  induction h with
  | free | imaginaryUnit => exact .of_forall (by simp)
  | real negative h => exact (balanced_sign negative).append h.balanced
  | imaginary negative h hmark =>
    refine (balanced_sign negative).append (h.balanced.append (.of_forall ?_))
    rcases hmark with rfl | rfl <;> simp
  | unary f _ ih => exact (Builtin.unary f).balanced_name.append (.group ih.nest (.nil _))
  | @binary f cs ds a b _ _ ihcs ihds =>
    have hcomma : Balanced true (',' :: ds) := .char (by decide) (by decide) nofun ihds.nest
    have hgroup := Balanced.group (ihcs.nest.append hcomma) (.nil false)
    rw [List.append_assoc, List.cons_append] at hgroup
    exact (Builtin.binary f).balanced_name.append hgroup

end Atom

/-! ### Reading what is written -/

theorem Glyph.endsOperand_of_isNumeral {g : Glyph} (h : g.isNumeral = true) :
    g.endsOperand = true := by
  simp only [isNumeral, Bool.or_eq_true] at h
  rcases h with h | h <;> simp [endsOperand, Char.isAlphanum, h]

theorem Glyph.isNumeral_of_mem {gs : List Glyph} (h : Decimal.IsLiteral (gs.map (·.item)))
    {g : Glyph} (hg : g ∈ gs) : g.isNumeral = true := by
  rw [isNumeral, Bool.or_eq_true, beq_iff_eq]
  exact h.numeral g.item (List.mem_map_of_mem hg)

namespace Atom

/-- The characters write a number that is not marked as imaginary. -/
def IsPlain (cs : List Char) : Prop :=
  ∃ negative digits, Decimal.IsLiteral digits ∧ cs = sign negative ++ digits

end Atom

namespace Lexeme

variable {limit levels : Nat} {inner : Option Reader} {before : Option Glyph}
  {gs rest : List Glyph}

/-- Nothing follows that a number could go on with. -/
structure Ends (rest : List Glyph) : Prop where
  numeral : rest.head?.any Glyph.isNumeral = false
  mark : imaginaryMark? rest = none

theorem ends_nil : Ends [] :=
  ⟨rfl, rfl⟩

/-- The glyphs are read in one step as one token, and an operand has ended behind them if one can
end with the token. -/
def ReadsToken (limit : Nat) (inner : Option Reader) (before : Option Glyph) (gs rest : List Glyph)
    (t : Token Atom) : Prop :=
  ∃ g after r, gs ++ rest = g :: after ∧ readOne limit inner before g after = .ok r ∧
    r.lexemes.map (·.item) = [t] ∧ r.rest = rest ∧ r.last.endsOperand = t.endsOperand

/-- A glyph on its own. -/
theorem readsToken_of_single {g : Glyph} {t : Token Atom}
    (h : readOne limit inner before g rest = .ok (.single t g rest))
    (hends : g.endsOperand = t.endsOperand) : ReadsToken limit inner before [g] rest t :=
  ⟨g, rest, _, rfl, h, rfl, rfl, hends⟩

/-- A token that is read, and what is read behind it. -/
theorem ReadsToken.scans {t : Token Atom} (h : ReadsToken limit inner before gs rest t)
    {ts : List (Token Atom)}
    (hrest : ∀ g : Glyph, g.endsOperand = t.endsOperand →
      ∃ ls, ls.map (·.item) = ts ∧ Scans limit inner (some g) rest ls) :
    ∃ ls, ls.map (·.item) = t :: ts ∧ Scans limit inner before (gs ++ rest) ls := by
  obtain ⟨g, after, r, hgs, hread, hitems, rfl, hends⟩ := h
  obtain ⟨ls, rfl, hscans⟩ := hrest r.last hends
  rw [hgs]
  exact ⟨r.lexemes ++ ls, by rw [List.map_append, hitems, List.singleton_append],
    .cons hread hscans⟩

/-! #### Numbers -/

section Number

variable {start : Nat} {negative : Bool} {first mark : Glyph} {more : List Glyph}

/-- Digits without a mark behind them are read as a real number. -/
theorem readLiteral_real (h : Decimal.IsLiteral ((first :: more).map (·.item)))
    (hrest : Ends rest) : readLiteral start negative first (more ++ rest) =
      .ok ⟨[⟨.operand (.number ⟨Atom.signed negative h.value, 0⟩), start,
        (more.getLastD first).stop⟩], more.getLastD first, rest⟩ := by
  obtain ⟨htake, hdrop⟩ := takeWhile_append_of_forall
    (fun g hg => Glyph.isNumeral_of_mem h (.tail _ hg)) hrest.numeral
  simp only [readLiteral, htake, hdrop, h.read?_eq, hrest.mark]
  rfl

/-- Digits with a mark behind them are read as an imaginary number. -/
theorem readLiteral_imaginary (h : Decimal.IsLiteral ((first :: more).map (·.item)))
    {after : List Glyph} (hmark : imaginaryMark? after = some (mark, rest)) :
    readLiteral start negative first (more ++ after) =
      .ok ⟨[⟨.operand (.number ⟨0, Atom.signed negative h.value⟩), start, mark.stop⟩], mark,
        rest⟩ := by
  have hafter : after.head?.any Glyph.isNumeral = false := by
    obtain ⟨hi, rfl | ⟨g, hstar, rfl⟩⟩ := imaginaryMark?_eq_some_iff.1 hmark
    · simp [Glyph.isNumeral, hi]
    · simp [Glyph.isNumeral, hstar]
  obtain ⟨htake, hdrop⟩ := takeWhile_append_of_forall
    (fun g hg => Glyph.isNumeral_of_mem h (.tail _ hg)) hafter
  simp only [readLiteral, htake, hdrop, h.read?_eq, hmark]
  rfl

/-- Where an operand is awaited, a number is read together with its sign. -/
theorem exists_readOne_eq_readLiteral (limit : Nat) (inner : Option Reader)
    (hbefore : awaitsOperand before = true) {signs : List Glyph}
    (hsigns : signs.map (·.item) = Atom.sign negative) (hfirst : first.isNumeral = true)
    (after : List Glyph) : ∃ g behind start, signs ++ first :: after = g :: behind ∧
      readOne limit inner before g behind = readLiteral start negative first after := by
  cases negative with
  | false =>
    obtain rfl := List.map_eq_nil_iff.1 hsigns
    exact ⟨first, after, first.start, rfl, by
      simp only [readOne, Glyph.charClass_eq_numeral_iff.2 hfirst]⟩
  | true =>
    obtain ⟨minus, rfl, hminus⟩ := List.map_eq_singleton_iff.1 hsigns
    have hclass : minus.charClass = .operator .sub := by
      rw [Glyph.charClass_congr (g := ⟨'-', 0, 0⟩) hminus]
      rfl
    refine ⟨minus, first :: after, minus.start, rfl, ?_⟩
    simp only [readOne, hclass, hbefore, and_self, if_true]
    exact readSign_of_isNumeral hfirst

/-- A number with nothing behind it that it could go on with. -/
theorem readsToken_real (hbefore : awaitsOperand before = true) {digits : List Char}
    (h : Decimal.IsLiteral digits) (hgs : gs.map (·.item) = Atom.sign negative ++ digits)
    (hrest : Ends rest) : ReadsToken limit inner before gs rest
      (.operand (.number ⟨Atom.signed negative h.value, 0⟩)) := by
  obtain ⟨signs, numerals, rfl, hsigns, rfl⟩ := List.map_eq_append_iff.1 hgs
  cases numerals with
  | nil => exact absurd h.exists_digit (by simp)
  | cons first more =>
    obtain ⟨g, behind, start, hrun, hread⟩ := exists_readOne_eq_readLiteral limit inner hbefore
      hsigns (Glyph.isNumeral_of_mem h (.head _)) (more ++ rest)
    refine ⟨g, behind, _, ?_, hread.trans (readLiteral_real h hrest), rfl, rfl, ?_⟩
    · rw [← hrun, List.append_assoc, List.cons_append]
    · have hlast : more.getLastD first ∈ first :: more := List.getLastD_mem_cons
      exact Glyph.endsOperand_of_isNumeral (Glyph.isNumeral_of_mem h hlast)

/-- A number with its mark. -/
theorem readsToken_imaginary (hbefore : awaitsOperand before = true) {digits marks : List Char}
    (h : Decimal.IsLiteral digits) (hmarks : marks = ['i'] ∨ marks = ['*', 'i'])
    (hgs : gs.map (·.item) = Atom.sign negative ++ (digits ++ marks)) :
    ReadsToken limit inner before gs rest
      (.operand (.number ⟨0, Atom.signed negative h.value⟩)) := by
  obtain ⟨signs, behind, rfl, hsigns, hbehind⟩ := List.map_eq_append_iff.1 hgs
  obtain ⟨numerals, marked, rfl, rfl, hmarked⟩ := List.map_eq_append_iff.1 hbehind
  obtain ⟨mark, hmark⟩ : ∃ mark, imaginaryMark? (marked ++ rest) = some (mark, rest) := by
    rcases hmarks with rfl | rfl
    · obtain ⟨mark, rfl, hi⟩ := List.map_eq_singleton_iff.1 hmarked
      exact ⟨mark, imaginaryMark?_eq_some_iff.2 ⟨hi, .inl rfl⟩⟩
    · obtain ⟨star, _, rfl, hstar, hmarked⟩ := List.map_eq_cons_iff.1 hmarked
      obtain ⟨mark, rfl, hi⟩ := List.map_eq_singleton_iff.1 hmarked
      exact ⟨mark, imaginaryMark?_eq_some_iff.2 ⟨hi, .inr ⟨star, hstar, rfl⟩⟩⟩
  cases numerals with
  | nil => exact absurd h.exists_digit (by simp)
  | cons first more =>
    obtain ⟨g, behind, start, hrun, hread⟩ := exists_readOne_eq_readLiteral limit inner hbefore
      hsigns (Glyph.isNumeral_of_mem h (.head _)) (more ++ (marked ++ rest))
    refine ⟨g, behind, _, ?_, hread.trans (readLiteral_imaginary h hmark), rfl, rfl, ?_⟩
    · rw [← hrun, List.append_assoc, List.append_assoc, List.cons_append]
    · simp [Glyph.endsOperand, (imaginaryMark?_eq_some_iff.1 hmark).1, Token.endsOperand]

end Number

/-! #### Calls -/

/-- A single token is all that is read of its glyphs if nothing follows. -/
theorem read_of_readsToken {t : Token Atom}
    (h : ReadsToken limit (innerReader limit levels) none gs [] t) :
    ∃ l, read limit levels gs = .ok [l] ∧ l.item = t := by
  obtain ⟨ls, hls, hscans⟩ := h.scans fun g _ => ⟨[], rfl, .nil (some g)⟩
  obtain ⟨l, rfl, hitem⟩ := List.map_eq_singleton_iff.1 hls
  rw [List.append_nil] at hscans
  exact ⟨l, read_eq_ok_iff.2 ⟨[l], hscans, rfl⟩, hitem⟩

/-- A single operand is read as an argument. -/
theorem readArgument_of_readsToken {a : Atom}
    (h : ReadsToken limit (innerReader limit levels) none gs [] (.operand a)) (name : String)
    (opening : Glyph) : readArgument (read limit levels) name opening gs = .ok a :=
  readArgument_eq_ok_iff.2 (read_of_readsToken h)

/-- The name of a function and its arguments are read as a call. -/
theorem readsToken_call {f : Builtin} {letters inside : List Glyph} {opening : Glyph}
    {reader : Reader} {arguments : ArgumentList} {atoms : List Atom} {a : Atom}
    (hletters : letters.map (·.item) = f.name.toList) (hopening : opening.item = '(')
    (harguments : ArgumentList.split? 0 inside = some arguments)
    (hclosing : arguments.closing.item = ')')
    (hatoms : List.Forall₂ (fun argument b => readArgument reader f.name opening argument = .ok b)
      arguments.all atoms)
    (hcall : Atom.call f.name atoms .unknown = .ok a)
    (hgs : gs ++ arguments.rest = letters ++ opening :: inside) :
    ReadsToken limit (some reader) before gs arguments.rest (.operand a) := by
  obtain ⟨⟨c, cs, hname, hclass⟩, hletter⟩ := f.letters_name
  obtain ⟨first, more, rfl, rfl, -⟩ := List.map_eq_cons_iff.1 (hletters.trans hname)
  have hmore : ∀ g ∈ more, g.isLetter = true := fun g hg =>
    hletter g.item (hletters ▸ List.mem_map_of_mem (.tail _ hg))
  have hstop : (opening :: inside).head?.any Glyph.isLetter = false :=
    Glyph.isLetter_congr (g := ⟨'(', 0, 0⟩) hopening
  obtain ⟨htake, hdrop⟩ := takeWhile_append_of_forall hmore hstop
  refine ⟨first, more ++ opening :: inside, ⟨[⟨.operand a, first.start, arguments.closing.stop⟩],
    arguments.closing, arguments.rest⟩, hgs, ?_, rfl, rfl, ?_⟩
  · have hfirst : first.charClass = .letter :=
      (Glyph.charClass_congr (g := ⟨first.item, 0, 0⟩) rfl).trans hclass
    rw [readOne_of_letter hfirst]
    refine readCall_eq_ok_iff.2 ⟨opening, inside, reader, arguments, atoms, a, hdrop, hopening,
      rfl, harguments, ?_, ?_, rfl⟩
    · rw [htake, hletters, String.ofList_toList]
      exact Except.mapM_eq_ok_iff.2 hatoms
    · rw [htake, hletters, String.ofList_toList]
      exact Atom.call_of_eq_ok hcall _
  · simp [Glyph.endsOperand, hclosing, Token.endsOperand]

end Lexeme

open Lexeme in
/-- What writes an operand is read as that operand where one is awaited, if there are levels enough
for its calls and no number goes on behind it. -/
theorem Atom.Written.readsToken {limit levels : Nat} {before : Option Glyph} {cs : List Char}
    {a : Atom} (h : Written cs a) (hdepth : a.callDepth ≤ levels)
    (hbefore : awaitsOperand before = true) {gs rest : List Glyph} (hgs : gs.map (·.item) = cs)
    (hrest : IsPlain cs → Ends rest) :
    ReadsToken limit (innerReader limit levels) before gs rest (.operand a) := by
  have hfront : awaitsOperand none = true := rfl
  induction h generalizing levels before gs rest with
  | free =>
    obtain ⟨g, rfl, hg⟩ := List.map_eq_singleton_iff.1 hgs
    exact readsToken_of_single (readOne_of_item hg rfl)
      (by simp [Glyph.endsOperand, hg, Token.endsOperand])
  | imaginaryUnit =>
    obtain ⟨g, rfl, hg⟩ := List.map_eq_singleton_iff.1 hgs
    exact readsToken_of_single (readOne_of_item hg rfl)
      (by simp [Glyph.endsOperand, hg, Token.endsOperand])
  | real negative h => exact readsToken_real hbefore h hgs (hrest ⟨negative, _, h, rfl⟩)
  | imaginary negative h hmark => exact readsToken_imaginary hbefore h hmark hgs
  | @unary f cs a h ih =>
    obtain ⟨levels, rfl⟩ := Nat.exists_eq_add_of_le' (Nat.le_trans (Nat.le_add_left 1 _) hdepth)
    obtain ⟨letters, behind, rfl, hletters, hbehind⟩ := List.map_eq_append_iff.1 hgs
    obtain ⟨opening, inside, rfl, hopening, hinside⟩ := List.map_eq_cons_iff.1 hbehind
    obtain ⟨argument, last, rfl, hargument, hlast⟩ := List.map_eq_append_iff.1 hinside
    obtain ⟨closing, rfl, hclosing⟩ := List.map_eq_singleton_iff.1 hlast
    have hread := ih (Nat.le_of_succ_le_succ hdepth) hfront hargument fun _ => ends_nil
    have hcall : call (Builtin.unary f).name [a] .unknown = .ok (.unary f a) :=
      Builtin.call_eq_ok_iff.2 (.inl ⟨f, a, Builtin.ofName?_name _, rfl, rfl⟩)
    exact readsToken_call hletters hopening (ArgumentList.split?_one h.balanced hargument hclosing)
      hclosing (.cons (readArgument_of_readsToken hread _ _) .nil) hcall (by simp)
  | @binary f cs ds a b ha hb iha ihb =>
    obtain ⟨levels, rfl⟩ := Nat.exists_eq_add_of_le' (Nat.le_trans (Nat.le_add_left 1 _) hdepth)
    obtain ⟨hdeptha, hdepthb⟩ := Nat.max_le.1 (Nat.le_of_succ_le_succ hdepth)
    obtain ⟨letters, behind, rfl, hletters, hbehind⟩ := List.map_eq_append_iff.1 hgs
    obtain ⟨opening, inside, rfl, hopening, hinside⟩ := List.map_eq_cons_iff.1 hbehind
    obtain ⟨left, behind, rfl, hleft, hbehind⟩ := List.map_eq_append_iff.1 hinside
    obtain ⟨comma, behind, rfl, hcomma, hbehind⟩ := List.map_eq_cons_iff.1 hbehind
    obtain ⟨right, last, rfl, hright, hlast⟩ := List.map_eq_append_iff.1 hbehind
    obtain ⟨closing, rfl, hclosing⟩ := List.map_eq_singleton_iff.1 hlast
    have hreada := iha hdeptha hfront hleft fun _ => ends_nil
    have hreadb := ihb hdepthb hfront hright fun _ => ends_nil
    have hone : ArgumentList.split? 0 (right ++ closing :: rest) =
        some ⟨right, [], closing, rest⟩ := ArgumentList.split?_one hb.balanced hright hclosing
    have hcall : call (Builtin.binary f).name [a, b] .unknown = .ok (.binary f a b) :=
      Builtin.call_eq_ok_iff.2 (.inr ⟨f, a, b, Builtin.ofName?_name _, rfl, rfl⟩)
    exact readsToken_call hletters hopening
      (ArgumentList.split?_comma ha.balanced hleft hcomma hone) hclosing
      (.cons (readArgument_of_readsToken hreada _ _)
        (.cons (readArgument_of_readsToken hreadb _ _) .nil)) hcall (by simp)

end ComplexFormula
