import ComplexFormula.Proofs.Arguments
import ComplexFormula.Proofs.Scanning

/-!
What is read does not depend on where it stands. A step of the scanner looks at the characters that
it uses up, at whether an operand is awaited, and at no more of what follows than whether the number
could go on there or a `-` could negate what begins there. So wherever the same characters stand,
with the same outlook, the same tokens are read from them.
-/

namespace ComplexFormula

namespace Glyph

/-- Whether a `-` directly before the glyph negates what begins with it. -/
def isNegatable (g : Glyph) : Bool :=
  match g.charClass with
  | .free | .imaginaryUnit | .letter | .opening => true
  | _ => false

variable {g g' : Glyph}

theorem isNumeral_congr (h : g'.item = g.item) : g'.isNumeral = g.isNumeral := by
  rw [isNumeral, isNumeral, h]

theorem isLetter_congr (h : g'.item = g.item) : g'.isLetter = g.isLetter := by
  rw [isLetter, isLetter, h]

theorem charClass_congr (h : g'.item = g.item) : g'.charClass = g.charClass := by
  obtain ⟨_, _, _⟩ := g
  obtain rfl := h
  rfl

theorem isNegatable_congr (h : g'.item = g.item) : g'.isNegatable = g.isNegatable := by
  rw [isNegatable, isNegatable, charClass_congr h]

/-- A glyph of the class of an operator is the operator's symbol. -/
theorem item_of_charClass {o : Operator} (h : g.charClass = .operator o) :
    g.item = o.symbol := by
  unfold charClass at h
  repeat' split at h
  all_goals cases h
  next ho =>
    have hsymbol := List.find?_some ho
    exact (beq_iff_eq.1 hsymbol).symm

theorem charClass_eq_numeral_iff : g.charClass = .numeral ↔ g.isNumeral = true := by
  unfold charClass
  repeat' split
  all_goals simp_all

end Glyph

theorem Lexeme.awaitsOperand_congr {g g' : Glyph} (h : g'.item = g.item) :
    awaitsOperand (some g') = awaitsOperand (some g) := by
  simp only [awaitsOperand, Glyph.endsOperand, h]

/-! ### What follows a reading -/

/-- A number goes on there in the same way. -/
structure SameContinuation (gs gs' : List Glyph) : Prop where
  numeral : gs'.head?.any Glyph.isNumeral = gs.head?.any Glyph.isNumeral
  mark : (Lexeme.imaginaryMark? gs').isSome = (Lexeme.imaginaryMark? gs).isSome

/-- What follows bears on a reading in the same way, be it a number in front or a sign. -/
structure SameOutlook (gs gs' : List Glyph) : Prop extends SameContinuation gs gs' where
  negatable : gs'.head?.any Glyph.isNegatable = gs.head?.any Glyph.isNegatable

/-- The reading was made at the front of `rest`, and `step` makes the same reading from the same
characters wherever what follows them is the same to it in the sense of `S`. -/
def Reading.Repeats (r : Reading) (S : List Glyph → List Glyph → Prop) (rest : List Glyph)
    (step : List Glyph → Except ParseError Reading) : Prop :=
  ∃ used, rest = used ++ r.rest ∧ ∀ used' rest', used'.map (·.item) = used.map (·.item) →
    S r.rest rest' → ∃ r', step (used' ++ rest') = .ok r' ∧
      r'.lexemes.map (·.item) = r.lexemes.map (·.item) ∧ r'.last.item = r.last.item ∧
      r'.rest = rest'

/-- The reading is repeated wherever a number goes on behind it in the same way. -/
abbrev Reading.Movable (r : Reading) (rest : List Glyph)
    (step : List Glyph → Except ParseError Reading) : Prop :=
  r.Repeats SameContinuation rest step

/-- The reading is repeated wherever what follows it has the same outlook. -/
abbrev Reading.Portable (r : Reading) (rest : List Glyph)
    (step : List Glyph → Except ParseError Reading) : Prop :=
  r.Repeats SameOutlook rest step

theorem Reading.Movable.portable {r : Reading} {rest : List Glyph}
    {step : List Glyph → Except ParseError Reading} (h : r.Movable rest step) :
    r.Portable rest step := by
  obtain ⟨used, hrest, hread⟩ := h
  refine ⟨used, hrest, ?_⟩
  intro used' rest' hitems houtlook
  exact hread used' rest' hitems houtlook.toSameContinuation

/-- A run of glyphs of one kind, as far as what follows is not of that kind. -/
theorem takeWhile_append_of_forall {p : Glyph → Bool} {us rest : List Glyph}
    (hus : ∀ g ∈ us, p g = true) (hrest : rest.head?.any p = false) :
    (us ++ rest).takeWhile p = us ∧ (us ++ rest).dropWhile p = rest := by
  rw [List.takeWhile_append_of_pos hus, List.dropWhile_append_of_pos hus]
  cases rest with
  | nil => simp
  | cons g rest => simp [show p g = false by simpa using hrest]

/-- Glyphs spelled like a run of glyphs of one kind are such a run, as far as what follows is not of
that kind. -/
theorem takeWhile_append_of_items {p : Glyph → Bool}
    (hp : ∀ {g g' : Glyph}, g'.item = g.item → p g' = p g) {gs used rest : List Glyph}
    (hitems : used.map (·.item) = (gs.takeWhile p).map (·.item))
    (hrest : rest.head?.any p = false) :
    (used ++ rest).takeWhile p = used ∧ (used ++ rest).dropWhile p = rest := by
  have hused : ∀ g ∈ used, p g = true := by
    intro g hg
    have hmem : g.item ∈ used.map (·.item) := List.mem_map_of_mem hg
    rw [hitems] at hmem
    obtain ⟨g', hg', heq⟩ := List.mem_map.1 hmem
    rw [hp heq.symm]
    exact List.all_eq_true.1 List.all_takeWhile g' hg'
  exact takeWhile_append_of_forall hused hrest

theorem head?_any_dropWhile (p : Glyph → Bool) (gs : List Glyph) :
    (gs.dropWhile p).head?.any p = false := by
  have h := List.head?_dropWhile_not p gs
  cases hhead : (gs.dropWhile p).head? with
  | none => rfl
  | some g => simpa [hhead] using h

namespace Lexeme

/-! ### Numbers -/

theorem imaginaryMark?_eq_some_iff {gs rest : List Glyph} {mark : Glyph} :
    imaginaryMark? gs = some (mark, rest) ↔ mark.item = 'i' ∧
      (gs = mark :: rest ∨ ∃ g, g.item = '*' ∧ gs = g :: mark :: rest) := by
  constructor
  · intro h
    unfold imaginaryMark? at h
    split at h
    · cases h
    · next g rest =>
      split at h
      · next hi =>
        cases h
        exact ⟨hi, .inl rfl⟩
      · split at h
        · next hstar =>
          split at h
          · split at h
            · next hi =>
              cases h
              exact ⟨hi, .inr ⟨g, hstar, rfl⟩⟩
            · cases h
          · cases h
        · cases h
  · rintro ⟨hi, rfl | ⟨g, hstar, rfl⟩⟩ <;> simp [imaginaryMark?, *]

/-- The characters of a mark are a mark wherever they stand, and no number goes on with them. -/
theorem imaginaryMark?_portable {gs rest : List Glyph} {mark : Glyph}
    (h : imaginaryMark? gs = some (mark, rest)) :
    ∃ used, gs = used ++ rest ∧ ∀ used' rest', used'.map (·.item) = used.map (·.item) →
      (used' ++ rest').head?.any Glyph.isNumeral = false ∧
        ∃ mark', imaginaryMark? (used' ++ rest') = some (mark', rest') ∧
          mark'.item = mark.item := by
  obtain ⟨hi, rfl | ⟨g, hstar, rfl⟩⟩ := imaginaryMark?_eq_some_iff.1 h
  · refine ⟨[mark], rfl, ?_⟩
    intro used' rest' hused
    obtain ⟨mark', rfl, hmark'⟩ := List.map_eq_singleton_iff.1 hused
    refine ⟨by simp [Glyph.isNumeral, hmark', hi], mark', ?_, hmark'⟩
    exact imaginaryMark?_eq_some_iff.2 ⟨hmark'.trans hi, .inl rfl⟩
  · refine ⟨[g, mark], rfl, ?_⟩
    intro used' rest' hused
    obtain ⟨g', _, rfl, hg', hmark⟩ := List.map_eq_cons_iff.1 hused
    obtain ⟨mark', rfl, hmark'⟩ := List.map_eq_singleton_iff.1 hmark
    refine ⟨by simp [Glyph.isNumeral, hg', hstar], mark', ?_, hmark'⟩
    exact imaginaryMark?_eq_some_iff.2 ⟨hmark'.trans hi, .inr ⟨g', hg'.trans hstar, rfl⟩⟩

/-- A number is read in the same way where its digits are followed by something else, as long as
neither the digits nor a mark go on there. -/
theorem readLiteral_movable {start : Nat} {negative : Bool} {first : Glyph} {rest : List Glyph}
    {r : Reading} (h : readLiteral start negative first rest = .ok r) (start' : Nat)
    {first' : Glyph} (hfirst : first'.item = first.item) :
    r.Movable rest (readLiteral start' negative first') := by
  have hdrop := List.takeWhile_append_dropWhile (p := Glyph.isNumeral) (l := rest)
  simp only [readLiteral] at h
  split at h
  · cases h
  next magnitude hmagnitude =>
  split at h
  · next mark after hmark =>
    cases h
    obtain ⟨marks, hmarks, hportable⟩ := imaginaryMark?_portable hmark
    refine ⟨rest.takeWhile Glyph.isNumeral ++ marks, ?_, ?_⟩
    · rw [List.append_assoc, ← hmarks, hdrop]
    · intro used' rest' hused _
      obtain ⟨digits', marks', rfl, hdigits, hmarks'⟩ :=
        List.map_eq_append_iff.1 (hused.trans List.map_append)
      obtain ⟨hhead, mark', hmark', hitem⟩ := hportable marks' rest' hmarks'
      obtain ⟨htake', hdrop'⟩ := takeWhile_append_of_items Glyph.isNumeral_congr hdigits hhead
      have hliteral : Decimal.read? ((first' :: digits').map (·.item)) = some magnitude := by
        rw [← hmagnitude, List.map_cons, List.map_cons, hfirst, hdigits]
      refine ⟨⟨[⟨.operand (.number ⟨0, if negative then -magnitude else magnitude⟩), start',
        mark'.stop⟩], mark', rest'⟩, ?_, rfl, hitem, rfl⟩
      simp only [readLiteral, List.append_assoc, htake', hdrop', hliteral, hmark']
  · next hmark =>
    cases h
    refine ⟨rest.takeWhile Glyph.isNumeral, hdrop.symm, ?_⟩
    intro used' rest' hused hcontinues
    have hhead : rest'.head?.any Glyph.isNumeral = false := by
      rw [hcontinues.numeral]
      exact head?_any_dropWhile _ rest
    have hmark' : imaginaryMark? rest' = none := by
      have := hcontinues.mark
      simpa [hmark] using this
    obtain ⟨htake', hdrop'⟩ := takeWhile_append_of_items Glyph.isNumeral_congr hused hhead
    have hliteral : Decimal.read? ((first' :: used').map (·.item)) = some magnitude := by
      rw [← hmagnitude, List.map_cons, List.map_cons, hfirst, hused]
    refine ⟨⟨[⟨.operand (.number ⟨if negative then -magnitude else magnitude, 0⟩), start',
      (used'.getLastD first').stop⟩], used'.getLastD first', rest'⟩, ?_, rfl, ?_, rfl⟩
    · simp only [readLiteral, htake', hdrop', hliteral, hmark']
    · calc (used'.getLastD first').item
        _ = (used'.map (·.item)).getLastD first'.item := List.getLastD_map.symm
        _ = ((rest.takeWhile Glyph.isNumeral).map (·.item)).getLastD first.item := by
          rw [hused, hfirst]
        _ = ((rest.takeWhile Glyph.isNumeral).getLastD first).item := List.getLastD_map

end Lexeme

/-! ### Argument lists -/

namespace ArgumentList

/-- The arguments are spelled alike and so is the parenthesis behind them. -/
def SameItems (a a' : ArgumentList) : Prop :=
  a'.all.map (List.map (·.item)) = a.all.map (List.map (·.item)) ∧ a'.closing.item = a.closing.item

theorem SameItems.push {a a' : ArgumentList} {g g' : Glyph} (h : SameItems a a')
    (hg : g'.item = g.item) : SameItems (a.push g) (a'.push g') := by
  obtain ⟨hall, hclosing⟩ := h
  obtain ⟨hfirst, hothers⟩ := List.cons.inj hall
  refine ⟨?_, hclosing⟩
  simp [ArgumentList.push, all, hfirst, hothers, hg]

theorem SameItems.pushEmpty {a a' : ArgumentList} (h : SameItems a a') :
    SameItems a.pushEmpty a'.pushEmpty := by
  obtain ⟨hall, hclosing⟩ := h
  refine ⟨?_, hclosing⟩
  simpa [ArgumentList.pushEmpty, all] using hall

/-- The arguments were cut out at the front of `gs`, and they are cut out in the same way from the
same characters, whatever follows. -/
def Portable (level : Nat) (gs : List Glyph) (a : ArgumentList) : Prop :=
  ∃ used, gs = used ++ a.rest ∧ ∀ used' rest', used'.map (·.item) = used.map (·.item) →
    ∃ a', split? level (used' ++ rest') = some a' ∧ SameItems a a' ∧ a'.rest = rest'

/-- One glyph in front, where cutting goes on at `inner` and puts the glyph in place by `put`. -/
theorem Portable.cons {level inner : Nat} {g : Glyph} {gs : List Glyph} {a : ArgumentList}
    (h : Portable inner gs a) (put : Glyph → ArgumentList → ArgumentList)
    (hsplit : ∀ g' gs', g'.item = g.item →
      split? level (g' :: gs') = (split? inner gs').map (put g'))
    (hput : ∀ g' a', g'.item = g.item → SameItems a a' → SameItems (put g a) (put g' a'))
    (hrest : ∀ g a, (put g a).rest = a.rest) : Portable level (g :: gs) (put g a) := by
  obtain ⟨used, rfl, hused⟩ := h
  refine ⟨g :: used, by rw [hrest, List.cons_append], ?_⟩
  intro used' rest' hitems
  obtain ⟨g', used', rfl, hg, hitems⟩ := List.map_eq_cons_iff.1 hitems
  obtain ⟨a', ha', hsame, hrest'⟩ := hused used' rest' hitems
  refine ⟨put g' a', ?_, hput g' a' hg hsame, (hrest g' a').trans hrest'⟩
  rw [List.cons_append, hsplit g' _ hg, ha', Option.map_some]

theorem split?_portable {level : Nat} {gs : List Glyph} {a : ArgumentList}
    (h : split? level gs = some a) : Portable level gs a := by
  fun_induction split? level gs generalizing a with
  | case1 => cases h
  | case2 level g rest hopening ih =>
    obtain ⟨b, hb, rfl⟩ := Option.map_eq_some_iff.1 h
    refine (ih hb).cons push ?_ (fun _ _ hg hsame => hsame.push hg) fun _ _ => rfl
    intro g' gs' hg
    simp [split?, hg, hopening]
  | case3 g rest hopening hclosing =>
    cases h
    refine ⟨[g], rfl, ?_⟩
    intro used' rest' hitems
    obtain ⟨g', rfl, hg⟩ := List.map_eq_singleton_iff.1 hitems
    refine ⟨⟨[], [], g', rest'⟩, ?_, ⟨rfl, hg⟩, rfl⟩
    simp [split?, hg, hclosing]
  | case4 g rest hopening hclosing level ih =>
    obtain ⟨b, hb, rfl⟩ := Option.map_eq_some_iff.1 h
    refine (ih hb).cons push ?_ (fun _ _ hg hsame => hsame.push hg) fun _ _ => rfl
    intro g' gs' hg
    simp [split?, hg, hclosing]
  | case5 level g rest hopening hclosing hcomma ih =>
    obtain ⟨b, hb, rfl⟩ := Option.map_eq_some_iff.1 h
    refine (ih hb).cons (fun _ => pushEmpty) ?_ (fun _ _ _ hsame => hsame.pushEmpty)
      fun _ _ => rfl
    intro g' gs' hg
    simp [split?, hg, hcomma]
  | case6 level g rest hopening hclosing hcomma ih =>
    obtain ⟨b, hb, rfl⟩ := Option.map_eq_some_iff.1 h
    refine (ih hb).cons push ?_ (fun _ _ hg hsame => hsame.push hg) fun _ _ => rfl
    intro g' gs' hg
    simp [split?, hg, hopening, hclosing, hcomma]

end ArgumentList

/-! ### Calls -/

/-- A call that is made can be made anywhere. -/
theorem Atom.call_of_eq_ok {name : String} {arguments : List Atom} {position : Position} {a : Atom}
    (h : call name arguments position = .ok a) (position' : Position) :
    call name arguments position' = .ok a :=
  Builtin.call_eq_ok_iff.2 (Builtin.call_eq_ok_iff.1 h)

namespace Lexeme

theorem readArgument_eq_ok_iff {reader : Reader} {name : String} {opening : Glyph}
    {argument : List Glyph} {a : Atom} : readArgument reader name opening argument = .ok a ↔
      ∃ l, reader argument = .ok [l] ∧ l.item = .operand a := by
  rw [readArgument_eq, Except.bind_eq_ok_iff]
  simp only [onlyOperand_eq_ok_iff]
  constructor
  · rintro ⟨_, hread, l, rfl, hl⟩
    exact ⟨l, hread, hl⟩
  · rintro ⟨l, hread, hl⟩
    exact ⟨_, hread, l, rfl, hl⟩

/-- What a call that is read consists of. -/
theorem readCall_eq_ok_iff {limit : Nat} {inner : Option Reader} {first : Glyph}
    {rest : List Glyph} {r : Reading} : readCall limit inner first rest = .ok r ↔
      ∃ opening inside reader arguments atoms a,
        rest.dropWhile Glyph.isLetter = opening :: inside ∧ opening.item = '(' ∧
        inner = some reader ∧ ArgumentList.split? 0 inside = some arguments ∧
        arguments.all.mapM (readArgument reader
          (String.ofList ((first :: rest.takeWhile Glyph.isLetter).map (·.item))) opening) =
            .ok atoms ∧
        Atom.call (String.ofList ((first :: rest.takeWhile Glyph.isLetter).map (·.item))) atoms
          (.offset first.start) = .ok a ∧
        r = ⟨[⟨.operand a, first.start, arguments.closing.stop⟩], arguments.closing,
          arguments.rest⟩ := by
  rw [readCall, Except.bind_eq_ok_iff]
  constructor
  · rintro ⟨⟨reader, call⟩, hcut, h⟩
    obtain ⟨opening, inside, arguments, hinside, hopening, hinner, hsplit, rfl⟩ :=
      cutCall_eq_ok_iff.1 hcut
    obtain ⟨lexeme, hlexeme, h⟩ := Except.bind_eq_ok_iff.1 h
    obtain ⟨atoms, hatoms, hlexeme⟩ := Except.bind_eq_ok_iff.1 hlexeme
    obtain ⟨a, ha, hlexeme⟩ := Except.bind_eq_ok_iff.1 hlexeme
    cases hlexeme
    cases h
    exact ⟨opening, inside, reader, arguments, atoms, a, hinside, hopening, hinner, hsplit, hatoms,
      ha, rfl⟩
  · rintro ⟨opening, inside, reader, arguments, atoms, a, hinside, hopening, hinner, hsplit,
      hatoms, ha, rfl⟩
    refine ⟨_, cutCall_eq_ok_iff.2 ⟨opening, inside, arguments, hinside, hopening, hinner, hsplit,
      rfl⟩, ?_⟩
    simp only [readInside, hatoms, Except.ok_bind, ha]
    rfl

/-- Whatever the first reader reads, the second reads as well wherever the same characters stand. -/
def Refines (reader reader' : Reader) : Prop :=
  ∀ ⦃gs gs' : List Glyph⦄ ⦃ls : List Lexeme⦄, gs'.map (·.item) = gs.map (·.item) →
    reader gs = .ok ls → ∃ ls', reader' gs' = .ok ls' ∧ ls'.map (·.item) = ls.map (·.item)

/-- The same of readers that there may or may not be. -/
def InnerRefines (inner inner' : Option Reader) : Prop :=
  ∀ reader ∈ inner, ∃ reader' ∈ inner', Refines reader reader'

theorem mapM_readArgument_of_refines {reader reader' : Reader} (hreader : Refines reader reader')
    {name : String} {opening opening' : Glyph} {as as' : List (List Glyph)} {atoms : List Atom}
    (hitems : as'.map (List.map (·.item)) = as.map (List.map (·.item)))
    (h : as.mapM (readArgument reader name opening) = .ok atoms) :
    as'.mapM (readArgument reader' name opening') = .ok atoms := by
  induction as generalizing as' atoms with
  | nil =>
    obtain rfl := List.map_eq_nil_iff.1 hitems
    exact h
  | cons argument as ih =>
    obtain ⟨argument', as', rfl, hargument, has⟩ := List.map_eq_cons_iff.1 hitems
    rw [List.mapM_cons] at h ⊢
    obtain ⟨a, ha, h⟩ := Except.bind_eq_ok_iff.1 h
    obtain ⟨atoms, hatoms, h⟩ := Except.bind_eq_ok_iff.1 h
    obtain ⟨l, hl, hitem⟩ := readArgument_eq_ok_iff.1 ha
    obtain ⟨ls', hls', hsame⟩ := hreader hargument hl
    obtain ⟨l', rfl, hitem'⟩ := List.map_eq_singleton_iff.1 hsame
    have ha' : readArgument reader' name opening' argument' = .ok a :=
      readArgument_eq_ok_iff.2 ⟨l', hls', hitem'.trans hitem⟩
    rw [ha', ih has hatoms]
    exact h

theorem readCall_movable {limit : Nat} {inner : Option Reader} {first : Glyph}
    {rest : List Glyph} {r : Reading} (h : readCall limit inner first rest = .ok r) (limit' : Nat)
    {inner' : Option Reader} (hinner : InnerRefines inner inner') {first' : Glyph}
    (hfirst : first'.item = first.item) : r.Movable rest (readCall limit' inner' first') := by
  obtain ⟨opening, inside, reader, arguments, atoms, a, hinside, hopening, rfl, harguments,
    hatoms, ha, rfl⟩ := readCall_eq_ok_iff.1 h
  obtain ⟨reader', hreader', hrefines⟩ := hinner reader rfl
  obtain ⟨used, rfl, hused⟩ := ArgumentList.split?_portable harguments
  have hdrop := List.takeWhile_append_dropWhile (p := Glyph.isLetter) (l := rest)
  refine ⟨rest.takeWhile Glyph.isLetter ++ opening :: used, ?_, ?_⟩
  · rw [List.append_assoc, List.cons_append, ← hinside, hdrop]
  · intro used' rest' hitems _
    obtain ⟨letters', _, rfl, hletters, hitems⟩ :=
      List.map_eq_append_iff.1 (hitems.trans List.map_append)
    obtain ⟨opening', inside', rfl, hopening', hinside'⟩ := List.map_eq_cons_iff.1 hitems
    obtain ⟨arguments', harguments', ⟨hall, hclosing⟩, hrest'⟩ := hused inside' rest' hinside'
    have hstop : (opening' :: (inside' ++ rest')).head?.any Glyph.isLetter = false :=
      Glyph.isLetter_congr (g := ⟨'(', 0, 0⟩) (hopening'.trans hopening)
    obtain ⟨htake, hdrop⟩ := takeWhile_append_of_items Glyph.isLetter_congr hletters hstop
    have hname : (first' :: letters').map (·.item) =
        (first :: rest.takeWhile Glyph.isLetter).map (·.item) := by
      rw [List.map_cons, List.map_cons, hfirst, hletters]
    refine ⟨⟨[⟨.operand a, first'.start, arguments'.closing.stop⟩], arguments'.closing,
      arguments'.rest⟩, ?_, rfl, hclosing, hrest'⟩
    rw [List.append_assoc, List.cons_append]
    refine readCall_eq_ok_iff.2 ⟨opening', inside' ++ rest', reader', arguments', atoms, a, hdrop,
      hopening'.trans hopening, hreader', harguments', ?_, ?_, rfl⟩
    · rw [htake, hname]
      exact mapM_readArgument_of_refines hrefines hall hatoms
    · rw [htake, hname]
      exact Atom.call_of_eq_ok ha _

/-! ### One step of the scanner -/

theorem single_movable {token : Token Atom} {g g' : Glyph} {rest : List Glyph}
    (hg : g'.item = g.item) : (Reading.single token g rest).Movable rest fun rest' =>
      .ok (.single token g' rest') := by
  refine ⟨[], rfl, ?_⟩
  intro used' rest' hused _
  obtain rfl := List.map_eq_nil_iff.1 hused
  exact ⟨_, rfl, rfl, hg, rfl⟩

/-- A sign before a number belongs to it. -/
theorem readSign_of_isNumeral {minus next : Glyph} {after : List Glyph}
    (h : next.isNumeral = true) :
    readSign minus (next :: after) = readLiteral minus.start true next after := by
  simp only [readSign, Glyph.charClass_eq_numeral_iff.2 h]

/-- Any other sign stands on its own. What it means shows from the glyph behind it. -/
theorem readSign_of_not_isNumeral {minus : Glyph} {rest : List Glyph}
    (h : rest.head?.any Glyph.isNumeral = false) : readSign minus rest =
      .ok ⟨if rest.head?.any Glyph.isNegatable then
          [minus.map fun _ => .operand (.number .minusOne), minus.map fun _ => .operator .mul]
        else [minus.map fun _ => .operator .sub], minus, rest⟩ := by
  cases rest with
  | nil => rfl
  | cons next after =>
    have hnumeral : next.isNumeral = false := by simpa using h
    cases hclass : next.charClass with
    | numeral => simp [Glyph.charClass_eq_numeral_iff.1 hclass] at hnumeral
    | _ => simp [readSign, Glyph.isNegatable, hclass, Reading.single]

/-- A sign and its number are read in the same way as a number is. -/
theorem readSign_movable {minus next : Glyph} {after : List Glyph} {r : Reading}
    (hnumeral : next.isNumeral = true) (h : readSign minus (next :: after) = .ok r)
    (minus' : Glyph) : r.Movable (next :: after) (readSign minus') := by
  rw [readSign_of_isNumeral hnumeral] at h
  have hmovable {next' : Glyph} (hnext' : next'.item = next.item) :=
    readLiteral_movable h minus'.start hnext'
  obtain ⟨used, rfl, -⟩ := hmovable rfl
  refine ⟨next :: used, rfl, ?_⟩
  intro used' rest' hitems hcontinues
  obtain ⟨next', used', rfl, hnext', hitems⟩ := List.map_eq_cons_iff.1 hitems
  obtain ⟨used₁, hused₁, hread⟩ := hmovable hnext'
  obtain rfl := List.append_cancel_right hused₁
  obtain ⟨r', hr', hsame⟩ := hread used' rest' hitems hcontinues
  have hnumeral' : next'.isNumeral = true := (Glyph.isNumeral_congr hnext').trans hnumeral
  refine ⟨r', ?_, hsame⟩
  rw [List.cons_append, readSign_of_isNumeral hnumeral', hr']

/-- A sign on its own is read in the same way wherever a `-` negates what follows as it does. -/
theorem readSign_portable {minus minus' : Glyph} {rest : List Glyph} {r : Reading}
    (hnumeral : rest.head?.any Glyph.isNumeral = false) (h : readSign minus rest = .ok r)
    (hminus : minus'.item = minus.item) : r.Portable rest (readSign minus') := by
  rw [readSign_of_not_isNumeral hnumeral] at h
  cases h
  refine ⟨[], rfl, ?_⟩
  intro used' rest' hused houtlook
  obtain rfl := List.map_eq_nil_iff.1 hused
  refine ⟨_, readSign_of_not_isNumeral (houtlook.numeral.trans hnumeral), ?_, hminus, rfl⟩
  rw [List.nil_append, houtlook.negatable]
  split <;> rfl

section Step

variable {limit : Nat} {inner : Option Reader} {before : Option Glyph} {g : Glyph}
  {rest : List Glyph} {r : Reading}

/-- Behind a sign on its own an operand is still awaited. -/
theorem endsOperand_last_of_readSign {minus : Glyph} (hminus : minus.charClass = .operator .sub)
    (hnumeral : rest.head?.any Glyph.isNumeral = false) (h : readSign minus rest = .ok r) :
    r.last.endsOperand = false := by
  rw [readSign_of_not_isNumeral hnumeral] at h
  cases h
  simp [Glyph.endsOperand, Glyph.item_of_charClass hminus, Operator.symbol]

variable (h : readOne limit inner before g rest = .ok r) (limit' : Nat) {inner' : Option Reader}
  (hinner : InnerRefines inner inner') {before' : Option Glyph}
  (hbefore : awaitsOperand before' = awaitsOperand before) {g' : Glyph} (hg : g'.item = g.item)

include h hinner hbefore hg

/-- A step reads a sign on its own, or what it reads can be moved. -/
theorem readOne_movable_or : r.Movable rest (readOne limit' inner' before' g') ∨
    g.charClass = .operator .sub ∧ awaitsOperand before = true ∧
      rest.head?.any Glyph.isNumeral = false := by
  unfold readOne at h
  simp only [Reading.Repeats, readOne, Glyph.charClass_congr hg, hbefore]
  generalize g.charClass = kind at h ⊢
  cases kind with
  | numeral => exact .inl (readLiteral_movable h _ hg)
  | letter => exact .inl (readCall_movable h _ hinner hg)
  | operator o =>
    simp only at h ⊢
    split at h
    · next hsign =>
      simp only [if_pos hsign]
      cases hnumeral : rest.head?.any Glyph.isNumeral with
      | true =>
        obtain ⟨next, hnext, hnumeral⟩ := (Option.any_eq_true _ _).1 hnumeral
        obtain ⟨after, rfl⟩ := List.head?_eq_some_iff.1 hnext
        exact .inl (readSign_movable hnumeral h g')
      | false => exact .inr ⟨congrArg _ hsign.1, hsign.2, rfl⟩
    · next hsign =>
      cases h
      simp only [if_neg hsign]
      exact .inl (single_movable hg)
  | foreign => cases h
  | _ =>
    cases h
    exact .inl (single_movable hg)

theorem readOne_portable : r.Portable rest (readOne limit' inner' before' g') := by
  rcases readOne_movable_or h limit' hinner hbefore hg with hmovable | ⟨hclass, hawaits, hnumeral⟩
  · exact hmovable.portable
  · simp only [readOne, hclass, hawaits, and_self, if_true] at h
    simp only [Reading.Repeats, readOne, Glyph.charClass_congr hg, hclass, hbefore, hawaits,
      and_self, if_true]
    exact readSign_portable hnumeral h hg

/-- Where an operand ends with the step, what it reads can be moved. -/
theorem readOne_movable (hlast : r.last.endsOperand = true) :
    r.Movable rest (readOne limit' inner' before' g') := by
  rcases readOne_movable_or h limit' hinner hbefore hg with hmovable | ⟨hclass, hawaits, hnumeral⟩
  · exact hmovable
  · simp only [readOne, hclass, hawaits, and_self, if_true] at h
    simp [endsOperand_last_of_readSign hclass hnumeral h] at hlast

end Step

end Lexeme

end ComplexFormula
