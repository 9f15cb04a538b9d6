import ComplexFormula.Proofs.Spelling
import ComplexFormula.Proofs.Writing

/-!
What is read as one operand is written as one. A step that reads an operand uses up the characters
that write it, and an argument of a call is one operand only if it is written as one. So the texts
that are read as a single operand are just those that the grammar of operands derives, as far as
their calls do not nest too deep.
-/

namespace ComplexFormula

open Atom (Written)

/-- What is in lower case stays as it is in lower case. -/
theorem Text.toLower_toLower (c : Char) : c.toLower.toLower = c.toLower := by
  have hsmall : ¬ (65 ≤ c.toLower.val.toNat ∧ c.toLower.val.toNat ≤ 90) := by
    unfold Char.toLower
    split
    · next hupper =>
      -- a capital letter becomes a small one
      have hlow : 65 ≤ c.val.toNat := hupper.1
      have hhigh : c.val.toNat ≤ 90 := hupper.2
      have hval : (c.val + ('a'.val - 'A'.val)).toNat = c.val.toNat + 32 := by
        change (c.val.toNat + 32) % 2 ^ 32 = c.val.toNat + 32
        omega
      simp only [hval]
      omega
    · next hupper => exact hupper
  generalize c.toLower = d at hsmall ⊢
  unfold Char.toLower
  exact dif_neg hsmall

/-- The characters are in lower case. -/
def Glyph.Small (gs : List Glyph) : Prop :=
  ∀ g ∈ gs, g.item.toLower = g.item

theorem Glyph.small_glyphs (text : String) : Small (glyphs text) := by
  intro g hg
  obtain ⟨p, c, -, -, rfl⟩ := mem_glyphs_iff.1 hg
  exact Text.toLower_toLower c

/-- The function that is found by a name in small letters is the one of that name. -/
theorem Builtin.toList_name_of_ofName? {gs : List Glyph} (hsmall : Glyph.Small gs) {f : Builtin}
    (h : ofName? (String.ofList (gs.map (·.item))) = some f) :
    gs.map (·.item) = f.name.toList := by
  have hfound := List.find?_some h
  rw [beq_iff_eq.1 hfound, String.toList_map, String.toList_ofList, List.map_map]
  exact (List.map_congr_left hsmall).symm

/-- What a call makes of arguments is written as the call of a function of that name with these
arguments. -/
theorem Atom.exists_written_of_call {name : String} {atoms : List Atom} {position : Position}
    {a : Atom} (h : call name atoms position = .ok a) {arguments : ArgumentList}
    (hwritten : List.Forall₂ (fun argument b => Written (argument.map (·.item)) b)
      arguments.all atoms) :
    ∃ f, Builtin.ofName? name = some f ∧
      Written (f.name.toList ++ '(' :: (arguments.joined ++ [')'])) a := by
  rw [ArgumentList.all] at hwritten
  rcases Builtin.call_eq_ok_iff.1 h with ⟨f, b, hf, rfl, rfl⟩ | ⟨f, b, c, hf, rfl, rfl⟩
  · obtain ⟨hb, hothers⟩ := List.forall₂_cons.1 hwritten
    refine ⟨_, hf, ?_⟩
    rw [ArgumentList.joined, List.forall₂_nil_right_iff.1 hothers]
    simpa [Builtin.name] using Written.unary f hb
  · obtain ⟨hb, hothers⟩ := List.forall₂_cons.1 hwritten
    obtain ⟨second, others, hc, hnil, heq⟩ := List.forall₂_cons_right_iff.1 hothers
    obtain rfl := List.forall₂_nil_right_iff.1 hnil
    refine ⟨_, hf, ?_⟩
    rw [ArgumentList.joined, heq]
    simpa [Builtin.name] using Written.binary f hb hc

/-- What the reader reads as a single operand is written as that operand. -/
def Reader.Recognizes (reader : Reader) : Prop :=
  ∀ ⦃gs : List Glyph⦄ ⦃l : Lexeme⦄ ⦃a : Atom⦄, Glyph.Small gs → reader gs = .ok [l] →
    l.item = .operand a → Written (gs.map (·.item)) a

namespace Lexeme

variable {limit : Nat} {inner : Option Reader} {before : Option Glyph} {gs : List Glyph}

/-- A number is read from the characters that write it. -/
theorem written_of_readLiteral {start : Nat} {negative : Bool} {first : Glyph} {rest : List Glyph}
    {r : Reading} (h : readLiteral start negative first rest = .ok r) :
    ∃ used a stop, rest = used ++ r.rest ∧ r.lexemes = [⟨.operand a, start, stop⟩] ∧
      Written (Atom.sign negative ++ (first :: used).map (·.item)) a := by
  have hdrop := List.takeWhile_append_dropWhile (p := Glyph.isNumeral) (l := rest)
  simp only [readLiteral] at h
  split at h
  · cases h
  next magnitude hmagnitude =>
  obtain ⟨hliteral, rfl⟩ := Decimal.isLiteral_of_read? hmagnitude
  split at h
  · next mark after hmark =>
    cases h
    obtain ⟨hi, hafter | ⟨star, hstar, hafter⟩⟩ := imaginaryMark?_eq_some_iff.1 hmark
    · have hwritten := Written.imaginary negative hliteral (.inl rfl)
      refine ⟨rest.takeWhile Glyph.isNumeral ++ [mark],
        .number ⟨0, Atom.signed negative hliteral.value⟩, _, ?_, rfl, ?_⟩
      · rw [List.append_assoc, List.singleton_append, ← hafter, hdrop]
      · simpa [hi] using hwritten
    · have hwritten := Written.imaginary negative hliteral (.inr rfl)
      refine ⟨rest.takeWhile Glyph.isNumeral ++ [star, mark],
        .number ⟨0, Atom.signed negative hliteral.value⟩, _, ?_, rfl, ?_⟩
      · rw [List.append_assoc, List.cons_append, List.singleton_append, ← hafter, hdrop]
      · simpa [hi, hstar] using hwritten
  · cases h
    exact ⟨rest.takeWhile Glyph.isNumeral, _, _, hdrop.symm, rfl, .real negative hliteral⟩

/-- A call is read from the characters that write it, if its arguments are. -/
theorem written_of_readCall (hinner : ∀ reader ∈ inner, Reader.Recognizes reader) {first : Glyph}
    {rest : List Glyph} (hsmall : Glyph.Small (first :: rest)) {r : Reading}
    (h : readCall limit inner first rest = .ok r) :
    ∃ used a start stop, rest = used ++ r.rest ∧ r.lexemes = [⟨.operand a, start, stop⟩] ∧
      Written ((first :: used).map (·.item)) a := by
  obtain ⟨opening, inside, reader, arguments, atoms, a, hinside, hopening, hreader, harguments,
    hatoms, hcall, rfl⟩ := readCall_eq_ok_iff.1 h
  have hdrop := List.takeWhile_append_dropWhile (p := Glyph.isLetter) (l := rest)
  rw [hinside] at hdrop
  generalize rest.takeWhile Glyph.isLetter = letters at hatoms hcall hdrop
  subst hdrop
  rw [← List.cons_append] at hsmall
  obtain ⟨hname, hbehind⟩ := List.forall_mem_append.1 hsmall
  have hall : ∀ argument ∈ arguments.all, Glyph.Small argument := fun argument hmem g hg =>
    hbehind g ((ArgumentList.enclosed_of_mem_all hopening harguments hmem).mem hg)
  have hwritten : List.Forall₂ (fun argument b => Written (argument.map (·.item)) b)
      arguments.all atoms := by
    refine ((List.forall₂_and_left _ _).2 ⟨hall, Except.mapM_eq_ok_iff.1 hatoms⟩).imp ?_
    rintro argument b ⟨hargument, hread⟩
    obtain ⟨l, hl, hitem⟩ := readArgument_eq_ok_iff.1 hread
    exact hinner reader hreader hargument hl hitem
  obtain ⟨f, hf, hwritten⟩ := Atom.exists_written_of_call hcall hwritten
  obtain ⟨used, rfl, hused, hclosing⟩ := ArgumentList.exists_inside_of_split? harguments
  refine ⟨letters ++ opening :: (used ++ [arguments.closing]), a, _, _, by simp, rfl, ?_⟩
  rw [← Builtin.toList_name_of_ofName? hname hf] at hwritten
  simpa [hopening, hused, hclosing] using hwritten

/-- Of a sign a single operand is read only if it is that of a number. -/
theorem written_of_readSign {minus : Glyph} {rest : List Glyph} (hminus : minus.item = '-')
    {r : Reading} (h : readSign minus rest = .ok r) {l : Lexeme} {a : Atom}
    (hlexemes : r.lexemes = [l]) (hitem : l.item = .operand a) :
    ∃ used, minus :: rest = used ++ r.rest ∧ Written (used.map (·.item)) a := by
  cases hnumeral : rest.head?.any Glyph.isNumeral with
  | true =>
    obtain ⟨next, hnext, hnumeral⟩ := (Option.any_eq_true _ _).1 hnumeral
    obtain ⟨after, rfl⟩ := List.head?_eq_some_iff.1 hnext
    rw [readSign_of_isNumeral hnumeral] at h
    obtain ⟨used, b, stop, rfl, hr, hwritten⟩ := written_of_readLiteral h
    cases hr.symm.trans hlexemes
    cases hitem
    refine ⟨minus :: next :: used, rfl, ?_⟩
    rw [List.map_cons, hminus]
    exact hwritten
  | false =>
    -- a factor of -1 is two tokens, and a difference is no operand
    rw [readSign_of_not_isNumeral hnumeral] at h
    cases h
    split at hlexemes
    · cases hlexemes
    · cases hlexemes
      cases hitem

/-- A step that reads a single operand reads it from the characters that write it. -/
theorem written_of_readOne (hinner : ∀ reader ∈ inner, Reader.Recognizes reader) {g : Glyph}
    {rest : List Glyph} (hsmall : Glyph.Small (g :: rest)) {r : Reading}
    (h : readOne limit inner before g rest = .ok r) {l : Lexeme} {a : Atom}
    (hlexemes : r.lexemes = [l]) (hitem : l.item = .operand a) :
    ∃ used, g :: rest = used ++ r.rest ∧ Written (used.map (·.item)) a := by
  have single {t : Token Atom} (hr : .ok (.single t g rest) = Except.ok (ε := ParseError) r)
      (ht : t = .operand a → Written [g.item] a) :
      ∃ used, g :: rest = used ++ r.rest ∧ Written (used.map (·.item)) a := by
    cases hr
    cases hlexemes
    exact ⟨[g], rfl, ht hitem⟩
  unfold readOne at h
  cases hclass : g.charClass <;> simp only [hclass] at h
  case numeral =>
    obtain ⟨used, b, stop, rfl, hr, hwritten⟩ := written_of_readLiteral h
    cases hr.symm.trans hlexemes
    cases hitem
    exact ⟨g :: used, rfl, hwritten⟩
  case free =>
    refine single h ?_
    rintro ⟨⟩
    rw [Glyph.charClass_eq_free_iff.1 hclass]
    exact .free
  case imaginaryUnit =>
    refine single h ?_
    rintro ⟨⟩
    rw [Glyph.item_eq_of_char? (by rw [hclass]; rfl)]
    exact .imaginaryUnit
  case letter =>
    obtain ⟨used, b, start, stop, rfl, hr, hwritten⟩ := written_of_readCall hinner hsmall h
    cases hr.symm.trans hlexemes
    cases hitem
    exact ⟨g :: used, rfl, hwritten⟩
  case operator o =>
    split at h
    case isFalse => exact single h nofun
    case isTrue hsign =>
      have hg : g.item = '-' := by
        rw [Glyph.item_of_charClass hclass, hsign.1]
        rfl
      exact written_of_readSign hg h hlexemes hitem
  case foreign => cases h
  all_goals exact single h nofun

/-- Each step reads something. -/
theorem lexemes_ne_nil_of_readOne {g : Glyph} {rest : List Glyph} {r : Reading}
    (h : readOne limit inner before g rest = .ok r) : r.lexemes ≠ [] := by
  obtain ⟨used, -, hread⟩ := exists_used_of_readOne h
  intro hnil
  rw [hnil] at hread
  cases hread

/-- A run that reads nothing has nothing to read. -/
theorem Scans.eq_nil (h : Scans limit inner before gs []) : gs = [] := by
  generalize hls : [] = ls at h
  cases h with
  | nil => rfl
  | cons h _ => exact absurd (List.append_eq_nil_iff.1 hls.symm).1 (lexemes_ne_nil_of_readOne h)

/-- A run that reads a single operand reads it from the characters that write it. -/
theorem Scans.written (hinner : ∀ reader ∈ inner, Reader.Recognizes reader)
    (hsmall : Glyph.Small gs) {l : Lexeme} {a : Atom} (h : Scans limit inner before gs [l])
    (hitem : l.item = .operand a) : Written (gs.map (·.item)) a := by
  generalize hls : [l] = ls at h
  cases h with
  | nil => cases hls
  | @cons _ g rest r tail h htail =>
    rcases List.append_eq_singleton_iff.1 hls.symm with ⟨hnil, -⟩ | ⟨hr, rfl⟩
    · exact absurd hnil (lexemes_ne_nil_of_readOne h)
    · obtain ⟨used, hused, hwritten⟩ := written_of_readOne hinner hsmall h hr hitem
      rwa [hused, htail.eq_nil, List.append_nil]

/-- Whatever depth is left, only what is written as an operand is read as a single one. -/
theorem recognizes_read (limit levels : Nat) : Reader.Recognizes (read limit levels) := by
  have step {levels : Nat} (hinner : ∀ reader ∈ innerReader limit levels, reader.Recognizes) :
      Reader.Recognizes (read limit levels) := by
    intro gs l a hsmall h hitem
    obtain ⟨scanned, hscans, hmultiply⟩ := read_eq_ok_iff.1 h
    obtain rfl := multiply_eq_singleton hmultiply
    exact hscans.written hinner hsmall hitem
  induction levels with
  | zero =>
    apply step
    rintro _ ⟨⟩
  | succ levels ih =>
    apply step
    rintro _ ⟨⟩
    exact ih

end Lexeme

/-- A text is read as a single operand exactly if its characters that are not blank, in lower case,
write that operand and the calls in it nest no deeper than the limit. -/
theorem Formula.lexemes_eq_singleton_iff (f : Formula) (a : Atom) :
    (∃ l, f.lexemes = .ok [l] ∧ l.item = .operand a) ↔
      Written (Text.spelling f.text) a ∧ a.callDepth ≤ f.depthLimit := by
  have hitems : (glyphs f.text).map (·.item) = Text.spelling f.text := items_glyphsFrom 0 _
  constructor
  · rintro ⟨l, hl, hitem⟩
    have hwritten := Lexeme.recognizes_read _ _ (Glyph.small_glyphs f.text) hl hitem
    exact ⟨hitems ▸ hwritten,
      Lexeme.depthAtMost_singleton.1 (Lexeme.depthAtMost_of_read hl) a hitem⟩
  · rintro ⟨hwritten, hdepth⟩
    exact Lexeme.read_of_readsToken
      (hwritten.readsToken hdepth rfl hitems fun _ => Lexeme.ends_nil)

/-- What writes an operand is read as a tree of one leaf. -/
theorem Formula.tree_of_written {text : String} {limit : Nat} {a : Atom}
    (h : Written (Text.spelling text) a) (hdepth : a.callDepth ≤ limit) :
    (Formula.mk text limit).tree = .ok (.leaf a) := by
  have hitems : (glyphs text).map (·.item) = Text.spelling text := items_glyphsFrom 0 _
  have htoken : Lexeme.ReadsToken limit (Lexeme.innerReader limit limit) none (glyphs text) []
      (.operand a) := h.readsToken hdepth rfl hitems fun _ => Lexeme.ends_nil
  obtain ⟨l, hl, hitem⟩ := Lexeme.read_of_readsToken htoken
  exact tree_eq_ok_iff.2 ⟨[l], hl, by simp [hitem, Postfix.order?, Tree.postorder]⟩

end ComplexFormula
