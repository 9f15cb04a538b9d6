import ComplexFormula.Proofs.Agreement
import ComplexFormula.Proofs.Refusal
import ComplexFormula.Proofs.Vacancy

/-!
What an error points at. Its position is where a glyph begins, and which glyph that can be depends
on the fault. There is no position only if the text has no terms at all.
-/

namespace ComplexFormula

/-- Among the glyphs stands a number that cannot be read: all of the digits and points in a row. It
begins with the glyph `first`, which is a sign if there is one. -/
def Glyph.Malformed (gs : List Glyph) (first : Glyph) (literal : String) : Prop :=
  ∃ before sign digits after, gs = before ++ sign ++ digits ++ after ∧
    (sign = [] ∨ sign = [first] ∧ first.item = '-') ∧ (sign ++ digits).head? = some first ∧
    digits ≠ [] ∧ (∀ d ∈ digits, d.isNumeral = true) ∧
    (before ++ sign).getLast?.any Glyph.isNumeral = false ∧
    after.head?.any Glyph.isNumeral = false ∧
    literal = String.ofList (digits.map (·.item)) ∧ Decimal.read? (digits.map (·.item)) = none

/-- The fault can show at the glyph. -/
def Fault.PointsTo (gs : List Glyph) (g : Glyph) : Fault → Prop
  | unexpectedCharacter c => c = g.item ∧ g.charClass = .foreign
  | malformedLiteral literal => Glyph.Malformed gs g literal
  | unreadable _ => False
  | missingClosingBracket => g.item = '('
  | unbalancedParentheses => g.item = '(' ∨ g.item = ')'
  | unknownFunction _ => g.isLetter = true
  | wrongCount _ _ _ _ => True
  | missingOperand => True
  | extraOperand => True
  | nestingTooDeep _ => g.item = '('

/-- The error has the position of a glyph at which its fault can show. -/
def ParseError.PointsInto (gs : List Glyph) (e : ParseError) : Prop :=
  ∃ g ∈ gs, e.position = .offset g.start ∧ e.fault.PointsTo gs g

theorem Glyph.Malformed.of_enclosed {inside gs : List Glyph} {first : Glyph} {literal : String}
    (h : Malformed inside first literal) (hgs : Enclosed inside gs) :
    Malformed gs first literal := by
  obtain ⟨before, sign, digits, after, rfl, hsign, hfirst, hdigits, hnumeral, hbefore, hafter,
    hread⟩ := h
  obtain ⟨before', left, right, after', rfl, hleft, hright⟩ := hgs
  refine ⟨before' ++ left :: before, sign, digits, after ++ right :: after', by simp, hsign, hfirst,
    hdigits, hnumeral, ?_, ?_, hread⟩
  · rw [List.append_assoc, List.cons_append, List.getLast?_append, List.getLast?_cons]
    cases hlast : (before ++ sign).getLast? with
    | none => simpa using hleft
    | some last => simpa [hlast] using hbefore
  · rw [List.head?_append]
    cases hhead : after.head? with
    | none => simpa using hright
    | some next => simpa [hhead] using hafter

theorem ParseError.PointsInto.of_enclosed {inside gs : List Glyph} {e : ParseError}
    (h : e.PointsInto inside) (hgs : Glyph.Enclosed inside gs) : e.PointsInto gs := by
  obtain ⟨g, hg, hposition, hfault⟩ := h
  refine ⟨g, hgs.mem hg, hposition, ?_⟩
  cases hcause : e.fault <;> rw [hcause] at hfault
  case malformedLiteral => exact Glyph.Malformed.of_enclosed hfault hgs
  all_goals exact hfault

/-! ### Reading -/

namespace Lexeme

variable {limit levels : Nat} {inner : Option Reader} {before : Option Glyph} {g : Glyph}
  {gs rest : List Glyph} {ls : List Lexeme} {l : Lexeme} {e : ParseError}

/-- The lexeme begins with one of the glyphs, and a parenthesis with itself. -/
def BeginsIn (gs : List Glyph) (l : Lexeme) : Prop :=
  ∃ g ∈ gs, l.start = g.start ∧ (l.item = .opening → g.item = '(') ∧
    (l.item = .closing → g.item = ')')

theorem StepRead.beginsIn {r : Reading} (h : StepRead limit inner g rest r) (hl : l ∈ r.lexemes) :
    l.BeginsIn (g :: rest) := by
  refine ⟨g, .head _, ?_⟩
  cases h with
  | literal _ _ h =>
    obtain ⟨z, stop, hr⟩ := lexemes_of_readLiteral h
    rw [hr] at hl
    obtain rfl := List.mem_singleton.1 hl
    exact ⟨rfl, nofun, nofun⟩
  | free | imaginaryUnit | operator =>
    obtain rfl := List.mem_singleton.1 hl
    exact ⟨rfl, nofun, nofun⟩
  | opening hg =>
    obtain rfl := List.mem_singleton.1 hl
    exact ⟨rfl, fun _ => hg, nofun⟩
  | closing hg =>
    obtain rfl := List.mem_singleton.1 hl
    exact ⟨rfl, nofun, fun _ => hg⟩
  | negation =>
    simp only [List.mem_cons, List.not_mem_nil, or_false] at hl
    rcases hl with rfl | rfl <;> exact ⟨rfl, nofun, nofun⟩
  | call _ h =>
    obtain ⟨_, _, _, _, _, _, -, -, -, -, -, -, rfl⟩ := readCall_eq_ok_iff.1 h
    obtain rfl := List.mem_singleton.1 hl
    exact ⟨rfl, nofun, nofun⟩

theorem Scans.beginsIn (h : Scans limit inner before gs ls) (hl : l ∈ ls) : l.BeginsIn gs := by
  induction h with
  | nil => cases hl
  | cons h _ ih =>
    rcases List.mem_append.1 hl with hl | hl
    · exact (stepRead_of_readOne h).beginsIn hl
    · obtain ⟨g, hg, hbegins⟩ := ih hl
      obtain ⟨used, last, hused, -⟩ := (stepRead_of_readOne h).exists_used
      exact ⟨g, hused ▸ List.mem_append_right _ hg, hbegins⟩

theorem beginsIn_of_read (h : read limit levels gs = .ok ls) (hl : l ∈ ls) : l.BeginsIn gs := by
  obtain ⟨scanned, hscans, rfl⟩ := read_eq_ok_iff.1 h
  rcases mem_multiply hl with hl | ⟨right, hright, rfl⟩
  · exact hscans.beginsIn hl
  · obtain ⟨g, hg, hstart, -⟩ := hscans.beginsIn hright
    exact ⟨g, hg, hstart, nofun, nofun⟩

/-- What a reader of arguments reports is in the argument, and so are the lexemes it reads. -/
def InnerPoints (inner : Option Reader) : Prop :=
  ∀ reader, inner = some reader → ∀ argument,
    (∀ e, reader argument = .error e → e.PointsInto argument) ∧
    ∀ ls, reader argument = .ok ls → ∀ l ∈ ls, BeginsIn argument l

/-- A faulty argument shows in itself or, if it is empty, at the parenthesis of its call. -/
theorem ArgumentRefused.pointsInto {reader : Reader} (hinner : InnerPoints (some reader))
    {name : String} {opening : Glyph} {argument : List Glyph}
    (h : ArgumentRefused reader name opening argument e)
    (hgs : Glyph.Enclosed argument gs) (hopening : opening ∈ gs) : e.PointsInto gs := by
  obtain ⟨herror, hok⟩ := hinner reader rfl argument
  cases h with
  | unread h => exact (herror e h).of_enclosed hgs
  | noOperand h =>
    obtain ⟨g, hg, hstart, -⟩ := hok _ h _ (.head _)
    exact ⟨g, hgs.mem hg, congrArg _ hstart, trivial⟩
  | wrongCount =>
    refine ⟨argument.headD opening, ?_, rfl, trivial⟩
    cases argument with
    | nil => exact hopening
    | cons g argument => exact hgs.mem (.head _)

theorem CallRefused.pointsInto (hinner : InnerPoints inner) (hletter : g.isLetter = true)
    (passed : List Glyph) (h : CallRefused limit inner g rest e) :
    e.PointsInto (passed ++ g :: rest) := by
  have hg : g ∈ passed ++ g :: rest := by simp
  cases h with
  | unopened => exact ⟨g, hg, rfl, hletter⟩
  | @tooDeep opening inside hinside hopening | @unclosed opening inside hinside hopening =>
    have hmem : opening ∈ rest := by
      have hdrop := (List.dropWhile_suffix (l := rest) Glyph.isLetter).subset
      exact hdrop (hinside ▸ .head _)
    exact ⟨opening, by simp [hmem], rfl, hopening⟩
  | @argument opening inside argument reader arguments e hinside hopening hreader hsplit hargument
      hrefused =>
    subst hreader
    obtain ⟨letters, rfl⟩ := hinside ▸ List.dropWhile_suffix (l := rest) Glyph.isLetter
    have henclosed := ArgumentList.enclosed_of_mem_all hopening hsplit hargument
    have hgs := (henclosed.append_left letters).cons g
    exact hrefused.pointsInto hinner (hgs.append_left passed) (by simp)
  | call h =>
    unfold Atom.call Builtin.call at h
    split at h <;> cases h
    · exact ⟨g, hg, rfl, hletter⟩
    · exact ⟨g, hg, rfl, trivial⟩

theorem StepRefused.pointsInto (hinner : InnerPoints inner) {passed : List Glyph}
    (hpassed : passed.getLast?.any Glyph.isNumeral = true → g.isNumeral = false)
    (h : StepRefused limit inner g rest e) : e.PointsInto (passed ++ g :: rest) := by
  have hg : g ∈ passed ++ g :: rest := by simp
  cases h with
  | foreign hclass => exact ⟨g, hg, rfl, rfl, hclass⟩
  | call hletter h => exact h.pointsInto hinner hletter passed
  | @literal sign digits after hrun hsign hdigits hnumeral hafter h =>
    have hgs : passed ++ g :: rest = passed ++ sign ++ digits ++ after := by simp [hrun]
    refine ⟨g, hg, rfl, passed, sign, digits, after, hgs, hsign, ?_, hdigits, hnumeral, ?_, hafter,
      rfl, h⟩
    · rcases hsign with rfl | ⟨rfl, -⟩
      · obtain ⟨d, digits, rfl⟩ := List.exists_cons_of_ne_nil hdigits
        exact congrArg some (List.cons.inj hrun).1.symm
      · rfl
    · rcases hsign with rfl | ⟨rfl, hminus⟩
      · obtain ⟨d, digits, rfl⟩ := List.exists_cons_of_ne_nil hdigits
        obtain rfl : g = d := (List.cons.inj hrun).1
        rw [List.append_nil, ← Bool.not_eq_true]
        intro hlast
        simp [hpassed hlast] at hnumeral
      · simp [Glyph.isNumeral, hminus]

theorem pointsInto_of_read (h : read limit levels gs = .error e) : e.PointsInto gs := by
  induction levels generalizing gs e with
  | zero =>
    obtain ⟨passed, g, rest, rfl, hpassed, hrefused⟩ := exists_stepRefused_of_read h
    have hinner : InnerPoints (innerReader limit 0) := nofun
    exact hrefused.pointsInto hinner hpassed
  | succ levels ih =>
    obtain ⟨passed, g, rest, rfl, hpassed, hrefused⟩ := exists_stepRefused_of_read h
    refine hrefused.pointsInto ?_ hpassed
    rintro _ ⟨⟩ argument
    exact ⟨fun e he => ih he, fun ls hls l hl => beginsIn_of_read hls hl⟩

end Lexeme

/-! ### Postfix order and trees -/

variable {gs : List Glyph} {e : ParseError}

theorem Postfix.pointsInto_of_arrange {limit : Nat} {waiting : List (Spanned Operator)}
    {frames : List Frame} {ts : List Lexeme}
    (hframes : ∀ f ∈ frames, ∃ g ∈ gs, f.start = g.start ∧ g.item = '(')
    (hts : ∀ t ∈ ts, Lexeme.BeginsIn gs t) (h : arrange limit waiting frames ts = .error e) :
    e.PointsInto gs := by
  fun_induction arrange limit waiting frames ts with
  | case1 => cases h
  | case2 waiting innermost frames =>
    cases h
    obtain ⟨g, hg, hstart, hitem⟩ := hframes innermost (.head _)
    exact ⟨g, hg, congrArg _ hstart, .inl hitem⟩
  | case3 waiting frames a start stop rest ih =>
    exact ih hframes (List.forall_mem_cons.1 hts).2 (Except.map_eq_error_iff.1 h)
  | case4 waiting frames o start stop rest _ ih =>
    exact ih hframes (List.forall_mem_cons.1 hts).2 (Except.map_eq_error_iff.1 h)
  | case5 waiting frames start stop rest _ =>
    cases h
    obtain ⟨g, hg, hstart, hitem, -⟩ := hts _ (.head _)
    exact ⟨g, hg, congrArg _ hstart, hitem rfl⟩
  | case6 waiting frames start stop rest _ ih =>
    obtain ⟨⟨g, hg, hstart, hitem, -⟩, hrest⟩ := List.forall_mem_cons.1 hts
    exact ih (List.forall_mem_cons.2 ⟨⟨g, hg, hstart, hitem rfl⟩, hframes⟩) hrest h
  | case7 waiting start stop rest =>
    cases h
    obtain ⟨g, hg, hstart, -, hitem⟩ := hts _ (.head _)
    exact ⟨g, hg, congrArg _ hstart, .inr (hitem rfl)⟩
  | case8 waiting start stop rest innermost frames ih =>
    exact ih (List.forall_mem_cons.1 hframes).2 (List.forall_mem_cons.1 hts).2
      (Except.map_eq_error_iff.1 h)

/-- Each term starts where one of the tokens does. -/
theorem Postfix.starts_of_ofTokens {α : Type} {limit : Nat} {ts : List (Spanned (Token α))}
    {terms : List (Spanned (Term α))} {P : Nat → Prop} (hts : ∀ t ∈ ts, P t.start)
    (h : ofTokens limit ts = .ok terms) : ∀ t ∈ terms, P t.start := by
  have halike : List.Forall₂ (Spanned.Alike fun p _ => P p) ts ts :=
    List.forall₂_same.2 fun t ht => ⟨rfl, hts t ht⟩
  have hagree := arrange_agree limit .nil .nil halike
  rw [ofTokens] at h
  rw [h] at hagree
  cases hagree with
  | ok halike => exact fun t ht => (List.forall₂_same.1 halike t ht).start

/-- A tree fails for want of an operand or for one too many, where a term starts or, without any
terms, nowhere. -/
theorem Tree.cases_of_build_eq_error {α : Type} {stack : List (Pending α)}
    {terms : List (Spanned (Term α))} {P : Nat → Prop} (hstack : ∀ w ∈ stack, P w.start)
    (hterms : ∀ t ∈ terms, P t.start) (h : build stack terms = .error e) :
    (stack = [] ∧ terms = [] ∧ e = ⟨.missingOperand, .unknown⟩) ∨
      ∃ p, P p ∧ (e = ⟨.missingOperand, .offset p⟩ ∨ e = ⟨.extraOperand, .offset p⟩) := by
  fun_induction build stack terms with
  | case1 stack hreverse =>
    cases h
    exact .inl ⟨List.reverse_eq_nil_iff.1 hreverse, rfl, rfl⟩
  | case2 => cases h
  | case3 stack root extra rest hreverse =>
    cases h
    have hmem : extra ∈ stack := by
      rw [← List.mem_reverse, hreverse]
      exact .tail _ (.head _)
    exact .inr ⟨extra.start, hstack extra hmem, .inr rfl⟩
  | case4 stack a start stop rest ih =>
    obtain ⟨hstart, hrest⟩ := List.forall_mem_cons.1 hterms
    rcases ih (List.forall_mem_cons.2 ⟨hstart, hstack⟩) hrest h with ⟨hnil, -⟩ | hp
    · cases hnil
    · exact .inr hp
  | case5 start stop o rest right left below ih =>
    obtain ⟨hstart, hrest⟩ := List.forall_mem_cons.1 hterms
    have hbelow := (List.forall_mem_cons.1 (List.forall_mem_cons.1 hstack).2).2
    rcases ih (List.forall_mem_cons.2 ⟨hstart, hbelow⟩) hrest h with ⟨hnil, -⟩ | hp
    · cases hnil
    · exact .inr hp
  | case6 =>
    cases h
    exact .inr ⟨_, hterms _ (.head _), .inl rfl⟩

/-- An error points at a glyph, but for the missing operand of a text without terms. -/
theorem Formula.pointsInto_of_build {f : Formula} (h : f.build = .error e) :
    (f.terms = .ok [] ∧ e = ⟨.missingOperand, .unknown⟩) ∨
      (f.terms ≠ .ok [] ∧ e.PointsInto (glyphs f.text)) := by
  rw [build_eq] at h
  rcases Except.bind_eq_error_iff.1 (Except.map_eq_error_iff.1 h) with h | ⟨terms, hterms, h⟩
  · refine .inr ⟨by simp [h], ?_⟩
    rcases Except.bind_eq_error_iff.1 h with h | ⟨ls, hls, h⟩
    · exact Lexeme.pointsInto_of_read h
    · have hframes : ∀ frame ∈ ([] : List Postfix.Frame),
          ∃ g ∈ glyphs f.text, frame.start = g.start ∧ g.item = '(' := nofun
      exact Postfix.pointsInto_of_arrange hframes (fun l hl => Lexeme.beginsIn_of_read hls hl) h
  · obtain ⟨ls, hls, harrange⟩ := Except.bind_eq_ok_iff.1 hterms
    have hstarts : ∀ t ∈ terms, (∃ g ∈ glyphs f.text, t.start = g.start) :=
      Postfix.starts_of_ofTokens (P := fun p => ∃ g ∈ glyphs f.text, p = g.start)
        (fun l hl => (Lexeme.beginsIn_of_read hls hl).imp fun _ hg => ⟨hg.1, hg.2.1⟩) harrange
    have hstack : ∀ w ∈ ([] : List (Tree.Pending Atom)), ∃ g ∈ glyphs f.text, w.start = g.start :=
      nofun
    rcases Tree.cases_of_build_eq_error (P := fun p => ∃ g ∈ glyphs f.text, p = g.start) hstack
      hstarts h with ⟨-, rfl, he⟩ | ⟨p, ⟨g, hg, rfl⟩, hp⟩
    · exact .inl ⟨hterms, he⟩
    · refine .inr ⟨?_, ?_⟩
      · intro hnil
        obtain rfl := Except.ok.inj (hterms.symm.trans hnil)
        cases h
        rcases hp with hp | hp <;> cases hp
      · rcases hp with rfl | rfl <;> exact ⟨g, hg, rfl, trivial⟩

/-! ### Back to the text -/

/-- The fault can show at the character `c`, which stands at the offset `p` of the text. -/
def Fault.ShowsAt (text : String) (p : Nat) (c : Char) : Fault → Prop
  | unexpectedCharacter d => d = c ∧ c.isDigit = false ∧ c ≠ '.' ∧ c.isAlpha = false ∧ c ≠ '(' ∧
    c ≠ ')' ∧ ∀ o : Operator, c ≠ o.symbol
  | malformedLiteral literal => (c = '-' ∨ c.isDigit = true ∨ c = '.') ∧
    ∃ first, first.start = p ∧ Glyph.Malformed (glyphs text) first literal
  | unreadable _ => False
  | missingClosingBracket => c = '('
  | unbalancedParentheses => c = '(' ∨ c = ')'
  | unknownFunction _ => c.isAlpha = true
  | wrongCount _ _ _ _ => True
  | missingOperand => True
  | extraOperand => True
  | nestingTooDeep _ => c = '('

theorem Glyph.of_charClass_eq_foreign {g : Glyph} (h : g.charClass = .foreign) :
    g.isNumeral = false ∧ g.isLetter = false ∧ g.item ≠ '(' ∧ g.item ≠ ')' ∧
      Operator.ofSymbol? g.item = none := by
  unfold charClass at h
  repeat' split at h
  all_goals simp_all

/-- A number begins with a sign, a digit or a point. -/
theorem Glyph.Malformed.item {gs : List Glyph} {first : Glyph} {literal : String}
    (h : Malformed gs first literal) : first.item = '-' ∨ first.isNumeral = true := by
  obtain ⟨before, sign, digits, after, -, hsign, hfirst, -, hnumeral, -⟩ := h
  rcases hsign with rfl | ⟨-, hminus⟩
  · exact .inr (hnumeral first (List.mem_of_mem_head? hfirst))
  · exact .inl hminus

theorem Text.isAlpha_eq_false_of_isDigit {c : Char} (h : c.isDigit = true) : c.isAlpha = false := by
  simp only [Char.isDigit, Bool.and_eq_true, decide_eq_true_eq, ge_iff_le,
    UInt32.le_iff_toNat_le] at h
  have hhigh : c.val.toNat ≤ 57 := h.2
  rw [← Bool.not_eq_true, isAlpha_iff]
  omega

theorem Fault.PointsTo.showsAt {text : String} {p stop : Nat} {c : Char} {fault : Fault}
    (h : fault.PointsTo (glyphs text) ⟨c.toLower, p, stop⟩) : fault.ShowsAt text p c := by
  have plain {d : Char} (hd : d.isAlpha = false) (hc : c.toLower = d) : c = d :=
    (Text.toLower_eq_self (hc ▸ hd)).symm.trans hc
  cases fault with
  | unexpectedCharacter d =>
    obtain ⟨rfl, hclass⟩ := h
    obtain ⟨hnumeral, hletter, hopening, hclosing, hsymbol⟩ := Glyph.of_charClass_eq_foreign hclass
    have hlower : c.toLower = c := Text.toLower_eq_self hletter
    simp only [Glyph.isNumeral, Glyph.isLetter, hlower, Bool.or_eq_false_iff, beq_eq_false_iff_ne]
      at hnumeral hletter hopening hclosing hsymbol
    refine ⟨hlower, hnumeral.1, hnumeral.2, hletter, hopening, hclosing, ?_⟩
    rintro o rfl
    rw [Operator.ofSymbol?_symbol] at hsymbol
    cases hsymbol
  | malformedLiteral literal =>
    refine ⟨?_, _, rfl, h⟩
    rcases Glyph.Malformed.item h with hminus | hnumeral
    · exact .inl (plain rfl hminus)
    rcases Bool.or_eq_true_iff.1 hnumeral with hdigit | hpoint
    · rw [Text.toLower_eq_self (Text.isAlpha_eq_false_of_isDigit hdigit)] at hdigit
      exact .inr (.inl hdigit)
    · exact .inr (.inr (plain rfl (beq_iff_eq.1 hpoint)))
  | unreadable detail => exact h
  | missingClosingBracket | nestingTooDeep limit => exact plain rfl h
  | unbalancedParentheses => exact h.imp (plain rfl) (plain rfl)
  | unknownFunction name => exact Text.isAlpha_of_isAlpha_toLower h
  | wrongCount | missingOperand | extraOperand => trivial

/-- An error has no position only if it is the missing operand of a text of nothing but parentheses,
each one opened before any is closed. Otherwise it points at a character of the text at which its
fault can show. -/
theorem Formula.position_of_build {f : Formula} (h : f.build = .error e) :
    (e.position = .unknown ↔ ∃ n ≤ f.depthLimit,
      f.text.toList.filter (fun c => !Text.isBlank c) =
        List.replicate n '(' ++ List.replicate n ')') ∧
    (e.position = .unknown → e.fault = .missingOperand) ∧
    ∀ p, e.position = .offset p → p < f.text.utf8ByteSize ∧ String.Pos.Raw.IsValid f.text ⟨p⟩ ∧
      ∃ c, Text.At f.text p c ∧ Text.isBlank c = false ∧ e.fault.ShowsAt f.text p c := by
  rw [← terms_eq_nil_iff]
  rcases pointsInto_of_build h with ⟨hterms, rfl⟩ | ⟨hterms, g, hg, hposition, hfault⟩
  · exact ⟨iff_of_true rfl hterms, fun _ => rfl, nofun⟩
  · rw [hposition]
    refine ⟨iff_of_false nofun hterms, nofun, ?_⟩
    rintro _ ⟨⟩
    obtain ⟨p, c, hat, hblank, rfl⟩ := mem_glyphs_iff.1 hg
    refine ⟨?_, hat.isValid.1, c, hat, hblank, hfault.showsAt⟩
    have hsize := hat.isValid.2.le_utf8ByteSize
    have hpos := c.utf8Size_pos
    exact Nat.lt_of_lt_of_le (Nat.lt_add_of_pos_right hpos) hsize

/-- In `pow(x, -1..5)` the sign of the number that cannot be read is pointed at. -/
theorem Formula.position_of_build_literal :
    (Formula.mk "pow(x, -1..5)" 1).build = .error ⟨.malformedLiteral "1..5", .offset 7⟩ ∧
      7 < "pow(x, -1..5)".utf8ByteSize ∧ ∃ c, Text.At "pow(x, -1..5)" 7 c ∧
        Text.isBlank c = false ∧ (Fault.malformedLiteral "1..5").ShowsAt "pow(x, -1..5)" 7 c := by
  have hlexemes : (Formula.mk "pow(x, -1..5)" 1).lexemes =
      .error ⟨.malformedLiteral "1..5", .offset 7⟩ := by
    decide +kernel
  have hbuild : (Formula.mk "pow(x, -1..5)" 1).build =
      .error ⟨.malformedLiteral "1..5", .offset 7⟩ := by
    rw [build, arena, terms, hlexemes]
    rfl
  obtain ⟨-, -, hposition⟩ := position_of_build hbuild
  obtain ⟨hsize, -, hshows⟩ := hposition 7 rfl
  exact ⟨hbuild, hsize, hshows⟩

end ComplexFormula
