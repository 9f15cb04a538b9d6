import ComplexFormula.Proofs.Agreement
import ComplexFormula.Proofs.Numbering
import ComplexFormula.Proofs.Offsets
import ComplexFormula.Proofs.Portability

/-!
A formula is its spelling: the characters that are not blank, in lower case. Two texts of the same
spelling are read as the same expression, or they are refused for the same fault, at the same
character in both. The two are read side by side: each stage makes of what corresponds what
corresponds, whether it succeeds or fails.
-/

namespace ComplexFormula

open List (Forall₂)

variable {R : Nat → Nat → Prop}

theorem items_of_alike {α : Type} {s s' : List (Spanned α)} (h : Forall₂ (Spanned.Alike R) s s') :
    s'.map (·.item) = s.map (·.item) := by
  induction h with
  | nil => rfl
  | cons hs _ ih => rw [List.map_cons, List.map_cons, hs.item, ih]

variable {gs gs' : List Glyph}

/-- Readings of the same lexemes that end with the same glyph and leave the same glyphs. -/
structure Reading.Alike (R : Nat → Nat → Prop) (r r' : Reading) : Prop where
  lexemes : Forall₂ (Spanned.Alike R) r.lexemes r'.lexemes
  last : r.last.Alike R r'.last
  rest : Forall₂ (Spanned.Alike R) r.rest r'.rest

/-- The same arguments, with the same glyphs behind them. -/
structure ArgumentList.Alike (R : Nat → Nat → Prop) (a a' : ArgumentList) : Prop where
  first : Forall₂ (Spanned.Alike R) a.first a'.first
  others : Forall₂ (Forall₂ (Spanned.Alike R)) a.others a'.others
  closing : a.closing.Alike R a'.closing
  rest : Forall₂ (Spanned.Alike R) a.rest a'.rest

/-- Calls of the same name with the same arguments. -/
structure UnreadCall.Alike (R : Nat → Nat → Prop) (c c' : UnreadCall) : Prop where
  name : c'.name = c.name
  start : R c.start c'.start
  opening : c.opening.Alike R c'.opening
  arguments : c.arguments.Alike R c'.arguments

/-- A reader that makes the same of the same glyphs. -/
def Reader.Uniform (R : Nat → Nat → Prop) (reader : Reader) : Prop :=
  ∀ ⦃gs gs' : List Glyph⦄, Forall₂ (Spanned.Alike R) gs gs' →
    Agree R (Forall₂ (Spanned.Alike R)) (reader gs) (reader gs')

/-! ### Argument lists -/

namespace ArgumentList

variable {a a' : ArgumentList}

theorem Alike.push {g g' : Glyph} (hg : g.Alike R g') (h : a.Alike R a') :
    (a.push g).Alike R (a'.push g') :=
  { h with first := .cons hg h.first }

theorem Alike.pushEmpty (h : a.Alike R a') : a.pushEmpty.Alike R a'.pushEmpty :=
  { h with first := .nil, others := .cons h.first h.others }

theorem map_alike {f f' : ArgumentList → ArgumentList} {o o' : Option ArgumentList}
    (h : Option.Rel (Alike R) o o') (hf : ∀ {a a'}, a.Alike R a' → (f a).Alike R (f' a')) :
    Option.Rel (Alike R) (o.map f) (o'.map f') := by
  cases h with
  | none => exact .none
  | some h => exact .some (hf h)

theorem split?_alike (level : Nat) (h : Forall₂ (Spanned.Alike R) gs gs') :
    Option.Rel (Alike R) (split? level gs) (split? level gs') := by
  induction h generalizing level with
  | nil => exact .none
  | @cons g g' rest rest' hg hrest ih =>
    rw [split?.eq_def, split?.eq_def level (g' :: rest')]
    simp only [hg.item]
    split
    · exact map_alike (ih _) (.push hg)
    · split
      · cases level with
        | zero => exact .some ⟨.nil, .nil, hg, hrest⟩
        | succ level => exact map_alike (ih _) (.push hg)
      · split
        · exact map_alike (ih _) .pushEmpty
        · exact map_alike (ih _) (.push hg)

end ArgumentList

namespace Lexeme

variable {first first' : Glyph} {rest rest' : List Glyph}

/-! ### Numbers -/

theorem imaginaryMark?_alike (h : Forall₂ (Spanned.Alike R) gs gs') :
    Option.Rel (fun m m' => m.1.Alike R m'.1 ∧ Forall₂ (Spanned.Alike R) m.2 m'.2)
      (imaginaryMark? gs) (imaginaryMark? gs') := by
  cases h with
  | nil => exact .none
  | cons hg hrest =>
    simp only [imaginaryMark?, hg.item]
    split
    · exact .some ⟨hg, hrest⟩
    · split
      · cases hrest with
        | nil => exact .none
        | cons hunit hrest =>
          simp only [hunit.item]
          split
          · exact .some ⟨hunit, hrest⟩
          · exact .none
      · exact .none

theorem getLastD_alike (hfirst : first.Alike R first') (h : Forall₂ (Spanned.Alike R) gs gs') :
    (gs.getLastD first).Alike R (gs'.getLastD first') := by
  induction h generalizing first first' with
  | nil => exact hfirst
  | cons hg _ ih =>
    rw [List.getLastD_cons, List.getLastD_cons]
    exact ih hg

theorem readLiteral_agree {start start' : Nat} (hstart : R start start') (negative : Bool)
    (hfirst : first.Alike R first') (hrest : Forall₂ (Spanned.Alike R) rest rest') :
    Agree R (Reading.Alike R) (readLiteral start negative first rest)
      (readLiteral start' negative first' rest') := by
  have hnumeral {g g' : Glyph} (hg : g.Alike R g') := Glyph.isNumeral_congr hg.item
  have hdigits := hrest.takeWhile hnumeral
  have hafter := hrest.dropWhile hnumeral
  simp only [readLiteral, items_of_alike (.cons hfirst hdigits)]
  cases Decimal.read? _ with
  | none => exact .placed _ hstart
  | some magnitude =>
    have hmark := imaginaryMark?_alike hafter
    generalize imaginaryMark? (rest.dropWhile Glyph.isNumeral) = mark,
      imaginaryMark? (rest'.dropWhile Glyph.isNumeral) = mark' at hmark ⊢
    cases hmark with
    | none => exact .ok ⟨.cons ⟨rfl, hstart⟩ .nil, getLastD_alike hfirst hdigits, hafter⟩
    | some hmark => exact .ok ⟨.cons ⟨rfl, hstart⟩ .nil, hmark.1, hmark.2⟩

/-! ### Calls -/

theorem onlyOperand_agree (name : String) {start start' : Nat} (hstart : R start start')
    {ls ls' : List Lexeme} (h : Forall₂ (Spanned.Alike R) ls ls') :
    Agree R Eq (onlyOperand name start ls) (onlyOperand name start' ls') := by
  cases h with
  | nil => exact .placed _ hstart
  | cons hlexeme hmore =>
    cases hmore with
    | nil =>
      simp only [onlyOperand, hlexeme.item]
      split
      · exact .ok rfl
      · exact .placed _ hlexeme.start
    | cons _ hmore =>
      simp only [onlyOperand, List.length_cons, hmore.length_eq]
      exact .placed _ hstart

theorem readArgument_agree {reader : Reader} (hreader : reader.Uniform R) (name : String)
    {opening opening' : Glyph} (hopening : opening.Alike R opening')
    (h : Forall₂ (Spanned.Alike R) gs gs') :
    Agree R Eq (readArgument reader name opening gs) (readArgument reader name opening' gs') := by
  have hhead : (gs.headD opening).Alike R (gs'.headD opening') := by
    cases h with
    | nil => exact hopening
    | cons hg _ => exact hg
  rw [readArgument_eq, readArgument_eq]
  exact (hreader h).bind fun hlexemes => onlyOperand_agree name hhead.start hlexemes

theorem call_agree (name : String) (arguments : List Atom) {p p' : Nat} (h : R p p') :
    Agree R Eq (Atom.call name arguments (.offset p)) (Atom.call name arguments (.offset p')) := by
  unfold Atom.call Builtin.call
  split
  · exact .placed _ h
  · exact .ok rfl
  · exact .ok rfl
  · exact .placed _ h

theorem cutCall_agree (limit : Nat) (inner : Option Reader) (hfirst : first.Alike R first')
    (hrest : Forall₂ (Spanned.Alike R) rest rest') :
    Agree R (fun cut cut' => cut.1 = cut'.1 ∧ cut.1 ∈ inner ∧ cut.2.Alike R cut'.2)
      (cutCall limit inner first rest) (cutCall limit inner first' rest') := by
  have hletter {g g' : Glyph} (hg : g.Alike R g') := Glyph.isLetter_congr hg.item
  have hbehind := hrest.dropWhile hletter
  simp only [cutCall, items_of_alike (.cons hfirst (hrest.takeWhile hletter))]
  generalize rest.dropWhile Glyph.isLetter = behind, rest'.dropWhile Glyph.isLetter = behind'
    at hbehind ⊢
  cases hbehind with
  | nil => exact .placed _ hfirst.start
  | @cons opening opening' inside inside' hopening hinside =>
    simp only [hopening.item]
    split
    · exact .placed _ hfirst.start
    · cases inner with
      | none => exact .placed _ hopening.start
      | some reader =>
        have hsplit := ArgumentList.split?_alike 0 hinside
        simp only
        generalize ArgumentList.split? 0 inside = arguments,
          ArgumentList.split? 0 inside' = arguments' at hsplit ⊢
        cases hsplit with
        | none => exact .placed _ hopening.start
        | some harguments => exact .ok ⟨rfl, rfl, rfl, hfirst.start, hopening, harguments⟩

theorem readInside_agree {reader : Reader} (hreader : reader.Uniform R) {c c' : UnreadCall}
    (h : c.Alike R c') :
    Agree R (Spanned.Alike R) (readInside Atom.call reader c) (readInside Atom.call reader c') := by
  have hatoms := Agree.mapM (.cons h.arguments.first h.arguments.others)
    (readArgument_agree hreader c.name h.opening)
  rw [List.forall₂_eq_eq_eq] at hatoms
  rw [readInside, readInside, h.name]
  refine hatoms.bind ?_
  rintro atoms _ rfl
  refine (call_agree _ atoms h.start).bind ?_
  rintro atom _ rfl
  exact .ok ⟨rfl, h.start⟩

theorem readCall_agree (limit : Nat) {inner : Option Reader}
    (hinner : ∀ reader ∈ inner, Reader.Uniform R reader) (hfirst : first.Alike R first')
    (hrest : Forall₂ (Spanned.Alike R) rest rest') :
    Agree R (Reading.Alike R) (readCall limit inner first rest)
      (readCall limit inner first' rest') := by
  rw [readCall, readCall]
  refine (cutCall_agree limit inner hfirst hrest).bind ?_
  rintro ⟨reader, c⟩ ⟨_, c'⟩ ⟨rfl, hreader, hcall⟩
  refine (readInside_agree (hinner reader hreader) hcall).bind fun hlexeme => ?_
  exact .ok ⟨.cons hlexeme .nil, hcall.arguments.closing, hcall.arguments.rest⟩

/-! ### One step of the scanner -/

theorem single_agree (token : Token Atom) {g g' : Glyph} (hg : g.Alike R g')
    (hrest : Forall₂ (Spanned.Alike R) rest rest') :
    Agree R (Reading.Alike R) (.ok (.single token g rest)) (.ok (.single token g' rest')) :=
  .ok ⟨.cons ⟨rfl, hg.start⟩ .nil, hg, hrest⟩

theorem readSign_agree {minus minus' : Glyph} (hminus : minus.Alike R minus')
    (hrest : Forall₂ (Spanned.Alike R) rest rest') :
    Agree R (Reading.Alike R) (readSign minus rest) (readSign minus' rest') := by
  have hnegation : Agree R (Reading.Alike R)
      (.ok ⟨[minus.map fun _ => .operand (.number .minusOne), minus.map fun _ => .operator .mul],
        minus, rest⟩)
      (.ok ⟨[minus'.map fun _ => .operand (.number .minusOne), minus'.map fun _ => .operator .mul],
        minus', rest'⟩) :=
    .ok ⟨.cons ⟨rfl, hminus.start⟩ (.cons ⟨rfl, hminus.start⟩ .nil), hminus, hrest⟩
  cases hrest with
  | nil => exact single_agree _ hminus .nil
  | cons hnext hafter =>
    simp only [readSign, Glyph.charClass_congr hnext.item]
    split
    · exact readLiteral_agree hminus.start true hnext hafter
    · exact hnegation
    · exact hnegation
    · exact hnegation
    · exact hnegation
    · exact single_agree _ hminus (.cons hnext hafter)

theorem readOne_agree (limit : Nat) {inner : Option Reader}
    (hinner : ∀ reader ∈ inner, Reader.Uniform R reader) {before before' : Option Glyph}
    (hbefore : awaitsOperand before' = awaitsOperand before) {g g' : Glyph} (hg : g.Alike R g')
    (hrest : Forall₂ (Spanned.Alike R) rest rest') :
    Agree R (Reading.Alike R) (readOne limit inner before g rest)
      (readOne limit inner before' g' rest') := by
  simp only [readOne, Glyph.charClass_congr hg.item, hbefore]
  cases g.charClass with
  | numeral => exact readLiteral_agree hg.start false hg hrest
  | letter => exact readCall_agree limit hinner hg hrest
  | operator o =>
    simp only
    split
    · exact readSign_agree hg hrest
    · exact single_agree _ hg hrest
  | foreign =>
    rw [hg.item]
    exact .placed _ hg.start
  | _ => exact single_agree _ hg hrest

/-! ### Reading to the end -/

theorem scan_agree (limit : Nat) {inner : Option Reader}
    (hinner : ∀ reader ∈ inner, Reader.Uniform R reader) {before before' : Option Glyph}
    (hbefore : awaitsOperand before' = awaitsOperand before)
    (h : Forall₂ (Spanned.Alike R) gs gs') :
    Agree R (Forall₂ (Spanned.Alike R)) (scan limit inner before gs)
      (scan limit inner before' gs') := by
  induction before, gs using scan_induction generalizing before' gs' with
  | nil =>
    cases h
    rw [scan_nil, scan_nil]
    exact .ok .nil
  | cons before g rest ih =>
    obtain ⟨g', rest', hg, hrest, rfl⟩ := List.forall₂_cons_left_iff.1 h
    rw [scan_cons, scan_cons]
    have hread := readOne_agree limit hinner hbefore hg hrest
    generalize readOne limit inner before' g' rest' = reading' at hread ⊢
    cases hr : readOne limit inner before g rest with
    | error e =>
      rw [hr] at hread
      cases hread with
      | unplaced fault => exact .unplaced fault
      | placed fault h => exact .placed fault h
    | ok r =>
      rw [hr] at hread
      cases hread with
      | ok hr' =>
        exact (ih _ _ (length_of_readOne hr) (awaitsOperand_congr hr'.last.item) hr'.rest).map
          fun htail => List.rel_append hr'.lexemes htail

theorem multiply_alike {ls ls' : List Lexeme} (h : Forall₂ (Spanned.Alike R) ls ls') :
    Forall₂ (Spanned.Alike R) (multiply ls) (multiply ls') := by
  fun_induction multiply ls generalizing ls' with
  | case1 =>
    cases h
    exact .nil
  | case2 last =>
    obtain ⟨last', _, hlast, hnil, rfl⟩ := List.forall₂_cons_left_iff.1 h
    cases hnil
    exact .cons hlast .nil
  | case3 left right rest hjuxtaposed ih =>
    obtain ⟨left', _, hleft, hmore, rfl⟩ := List.forall₂_cons_left_iff.1 h
    obtain ⟨right', rest', hright, hrest, rfl⟩ := List.forall₂_cons_left_iff.1 hmore
    rw [multiply, if_pos]
    · exact .cons hleft (.cons ⟨rfl, hright.start⟩ (ih hmore))
    · rwa [juxtaposed, hleft.item, hright.item]
  | case4 left right rest hjuxtaposed ih =>
    obtain ⟨left', _, hleft, hmore, rfl⟩ := List.forall₂_cons_left_iff.1 h
    obtain ⟨right', rest', hright, hrest, rfl⟩ := List.forall₂_cons_left_iff.1 hmore
    rw [multiply, if_neg]
    · exact .cons hleft (ih hmore)
    · rwa [juxtaposed, hleft.item, hright.item]

theorem uniform_read (limit levels : Nat) : Reader.Uniform R (read limit levels) := by
  induction levels with
  | zero =>
    intro gs gs' h
    exact (scan_agree limit (by simp) rfl h).map multiply_alike
  | succ levels ih =>
    have hinner : ∀ reader ∈ some (read limit levels), Reader.Uniform R reader := by
      rintro _ ⟨⟩
      exact ih
    intro gs gs' h
    exact (scan_agree limit hinner rfl h).map multiply_alike

end Lexeme

/-! ### Texts of the same spelling -/

namespace Text

/-- The characters of a text that are not blank, in lower case. -/
def spelling (text : String) : List Char :=
  (text.toList.filter fun c => !isBlank c).map Char.toLower

theorem spelling_append (s t : String) : spelling (s ++ t) = spelling s ++ spelling t := by
  simp [spelling]

/-- At a byte offset of the text stands a character that is not blank, behind `i` others. -/
def Numbered (text : String) (i p : Nat) : Prop :=
  ∃ before c after, text = before ++ String.singleton c ++ after ∧ isBlank c = false ∧
    before.toList.countP (fun c => !isBlank c) = i ∧ before.utf8ByteSize = p

end Text

/-- Glyphs are numbered as the characters are that they come from. -/
theorem numbered_of_getElem?_glyphs {text : String} {i : Nat} {g : Glyph}
    (h : (glyphs text)[i]? = some g) : Text.Numbered text i g.start := by
  obtain ⟨before, c, after, htext, hblank, hcount, rfl⟩ := exists_of_getElem?_glyphsFrom h
  refine ⟨String.ofList before, c, String.ofList after, ?_, hblank, by simpa using hcount, ?_⟩
  · rw [← String.toList_inj, htext]
    simp
  · rw [Text.utf8ByteSize_ofList, Nat.zero_add]

/-- Two offsets at which the texts have the character of the same number. -/
def Text.SameNumber (s t : String) (p q : Nat) : Prop :=
  ∃ i, Numbered s i p ∧ Numbered t i q

theorem glyphs_alike {s t : String} (h : Text.spelling s = Text.spelling t) :
    Forall₂ (Spanned.Alike (Text.SameNumber s t)) (glyphs s) (glyphs t) := by
  have hitems : (glyphs s).map (·.item) = (glyphs t).map (·.item) := by
    rw [glyphs, glyphs, items_glyphsFrom, items_glyphsFrom]
    exact h
  have hlength : (glyphs s).length = (glyphs t).length := by
    simpa using congrArg List.length hitems
  refine List.forall₂_iff_get.2 ⟨hlength, ?_⟩
  intro i hs ht
  have hitem : ((glyphs s).map (·.item))[i]? = ((glyphs t).map (·.item))[i]? := by rw [hitems]
  refine ⟨?_, i, numbered_of_getElem?_glyphs ?_, numbered_of_getElem?_glyphs ?_⟩
  · simpa [hs, ht] using hitem.symm
  · simp [hs]
  · simp [ht]

/-- Two texts of the same spelling are read as the same expression or are refused for the same
fault, at the character of the same number in both. -/
theorem Formula.agree_of_spelling_eq {s t : String} (h : Text.spelling s = Text.spelling t)
    (limit : Nat) :
    Agree (Text.SameNumber s t) Eq (Formula.mk s limit).build (Formula.mk t limit).build := by
  have hlexemes : Agree (Text.SameNumber s t) (Forall₂ (Spanned.Alike (Text.SameNumber s t)))
      (Formula.mk s limit).lexemes (Formula.mk t limit).lexemes :=
    Lexeme.uniform_read limit limit (glyphs_alike h)
  have hterms : Agree (Text.SameNumber s t) (Forall₂ (Spanned.Alike (Text.SameNumber s t)))
      (Formula.mk s limit).terms (Formula.mk t limit).terms :=
    hlexemes.bind (Postfix.arrange_agree limit .nil .nil)
  have htree : Agree (Text.SameNumber s t) Eq (Formula.mk s limit).tree (Formula.mk t limit).tree :=
    hterms.bind (Tree.build_agree .nil)
  rw [build_eq, build_eq]
  exact htree.map (congrArg Expression.ofTree)

/-- The `(` that is never closed is the fourth character of both texts that is not blank. -/
theorem Formula.agree_of_spelling_eq_sine : Text.spelling "Sin ( X" = Text.spelling "sin(x" ∧
    (Formula.mk "Sin ( X" 1).build = .error ⟨.missingClosingBracket, .offset 4⟩ ∧
    (Formula.mk "sin(x" 1).build = .error ⟨.missingClosingBracket, .offset 3⟩ ∧
    Text.SameNumber "Sin ( X" "sin(x" 4 3 := by
  have hspelling : Text.spelling "Sin ( X" = Text.spelling "sin(x" := by decide +kernel
  have hs : (Formula.mk "Sin ( X" 1).lexemes = .error ⟨.missingClosingBracket, .offset 4⟩ := by
    decide +kernel
  have ht : (Formula.mk "sin(x" 1).lexemes = .error ⟨.missingClosingBracket, .offset 3⟩ := by
    decide +kernel
  have hs : (Formula.mk "Sin ( X" 1).build = .error ⟨.missingClosingBracket, .offset 4⟩ := by
    rw [build, arena, terms, hs]
    rfl
  have ht : (Formula.mk "sin(x" 1).build = .error ⟨.missingClosingBracket, .offset 3⟩ := by
    rw [build, arena, terms, ht]
    rfl
  have hagree := agree_of_spelling_eq hspelling 1
  rw [hs, ht] at hagree
  cases hagree with
  | placed _ h => exact ⟨hspelling, hs, ht, h⟩

end ComplexFormula
