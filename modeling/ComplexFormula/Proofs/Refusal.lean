import ComplexFormula.Proofs.Steps

/-!
Why the glyphs of a text are refused. Reading stops at the first step that fails, and the step fails
at a character that no formula holds, at a number that cannot be read, or at a call. What is wrong
with a call shows in its name, in its parentheses or in an argument, which is read like a text.
-/

namespace Except

variable {ε α β : Type}

theorem map_eq_error_iff {f : α → β} {u : Except ε α} {e : ε} :
    f <$> u = .error e ↔ u = .error e := by
  cases u <;> simp [Functor.map, Except.map]

theorem bind_eq_error_iff {f : α → Except ε β} {u : Except ε α} {e : ε} :
    u >>= f = .error e ↔ u = .error e ∨ ∃ a, u = .ok a ∧ f a = .error e := by
  cases u <;> simp [bind, Except.bind]

/-- Where a list cannot be gone through, something in it stands in the way. -/
theorem exists_mem_of_mapM_eq_error {f : α → Except ε β} {as : List α} {e : ε}
    (h : as.mapM f = .error e) : ∃ a ∈ as, f a = .error e := by
  induction as with
  | nil => cases h
  | cons a as ih =>
    rw [List.mapM_cons] at h
    rcases bind_eq_error_iff.1 h with h | ⟨b, -, h⟩
    · exact ⟨a, .head _, h⟩
    rcases bind_eq_error_iff.1 h with h | ⟨bs, -, h⟩
    · obtain ⟨c, hc, h⟩ := ih h
      exact ⟨c, .tail _ hc, h⟩
    · cases h

end Except

namespace ComplexFormula

/-! ### Arguments -/

/-- The glyphs stand in one piece among others, between two that belong to no number. -/
def Glyph.Enclosed (inside gs : List Glyph) : Prop :=
  ∃ before left right after, gs = before ++ left :: (inside ++ right :: after) ∧
    left.isNumeral = false ∧ right.isNumeral = false

namespace Glyph.Enclosed

variable {inside gs : List Glyph}

theorem cons (h : Enclosed inside gs) (g : Glyph) : Enclosed inside (g :: gs) := by
  obtain ⟨before, left, right, after, rfl, hleft, hright⟩ := h
  exact ⟨g :: before, left, right, after, rfl, hleft, hright⟩

theorem append_left (h : Enclosed inside gs) (us : List Glyph) : Enclosed inside (us ++ gs) := by
  obtain ⟨before, left, right, after, rfl, hleft, hright⟩ := h
  exact ⟨us ++ before, left, right, after, (List.append_assoc _ _ _).symm, hleft, hright⟩

theorem length_lt (h : Enclosed inside gs) : inside.length < gs.length := by
  obtain ⟨before, left, right, after, rfl, -, -⟩ := h
  simp only [List.length_append, List.length_cons]
  omega

theorem mem (h : Enclosed inside gs) {g : Glyph} (hg : g ∈ inside) : g ∈ gs := by
  obtain ⟨before, left, right, after, rfl, -, -⟩ := h
  simp [hg]

end Glyph.Enclosed

namespace ArgumentList

variable {level : Nat} {gs argument : List Glyph} {a : ArgumentList}

/-- Behind the first argument comes a comma or the parenthesis that closes, and these enclose the
others. -/
theorem enclosed_of_split? (h : split? level gs = some a) :
    (∃ right after, gs = a.first ++ right :: after ∧ right.isNumeral = false) ∧
      ∀ argument ∈ a.others, Glyph.Enclosed argument gs := by
  fun_induction split? level gs generalizing a with
  | case1 => cases h
  | case3 g rest _ hclosing =>
    cases h
    exact ⟨⟨g, rest, rfl, by simp [Glyph.isNumeral, hclosing]⟩, by simp⟩
  | case2 level g rest _ ih | case4 g rest _ _ level ih | case6 level g rest _ _ _ ih =>
    obtain ⟨b, hb, rfl⟩ := Option.map_eq_some_iff.1 h
    obtain ⟨⟨right, after, rfl, hright⟩, hothers⟩ := ih hb
    exact ⟨⟨right, after, rfl, hright⟩, fun c hc => (hothers c hc).cons g⟩
  | case5 level g rest _ _ hcomma ih =>
    obtain ⟨b, hb, rfl⟩ := Option.map_eq_some_iff.1 h
    obtain ⟨⟨right, after, rfl, hright⟩, hothers⟩ := ih hb
    have hg : g.isNumeral = false := by simp [Glyph.isNumeral, hcomma]
    refine ⟨⟨g, _, rfl, hg⟩, fun c hc => ?_⟩
    rcases List.mem_cons.1 hc with rfl | hc
    · exact ⟨[], g, right, after, rfl, hg, hright⟩
    · exact (hothers c hc).cons g

/-- An argument stands in one piece behind the parenthesis of its call. -/
theorem enclosed_of_mem_all {opening : Glyph} (hopening : opening.item = '(')
    (h : split? level gs = some a) (hargument : argument ∈ a.all) :
    Glyph.Enclosed argument (opening :: gs) := by
  obtain ⟨⟨right, after, rfl, hright⟩, hothers⟩ := enclosed_of_split? h
  rcases List.mem_cons.1 hargument with rfl | hargument
  · exact ⟨[], opening, right, after, rfl, by simp [Glyph.isNumeral, hopening], hright⟩
  · exact (hothers argument hargument).cons opening

end ArgumentList

namespace Lexeme

variable {limit : Nat} {inner : Option Reader} {before : Option Glyph} {first g : Glyph}
  {rest gs : List Glyph} {e : ParseError}

/-- Why an argument is refused. -/
inductive ArgumentRefused (reader : Reader) (name : String) (opening : Glyph)
    (argument : List Glyph) : ParseError → Prop
  | unread {e : ParseError} (h : reader argument = .error e) :
      ArgumentRefused reader name opening argument e
  /-- It is a lone operator or parenthesis. -/
  | noOperand {l : Lexeme} (h : reader argument = .ok [l]) (hl : l.item.operand? = none) :
      ArgumentRefused reader name opening argument ⟨.missingOperand, .offset l.start⟩
  /-- It is empty or more than an operand. -/
  | wrongCount {ls : List Lexeme} (h : reader argument = .ok ls) (hls : ls.length ≠ 1) :
      ArgumentRefused reader name opening argument
        ⟨.wrongCount name .tokensPerArgument 1 ls.length, .offset (argument.headD opening).start⟩

theorem argumentRefused_of_readArgument {reader : Reader} {name : String} {opening : Glyph}
    {argument : List Glyph} (h : readArgument reader name opening argument = .error e) :
    ArgumentRefused reader name opening argument e := by
  rw [readArgument_eq] at h
  rcases Except.bind_eq_error_iff.1 h with h | ⟨ls, hls, h⟩
  · exact .unread h
  by_cases hlength : ls.length = 1
  · obtain ⟨l, rfl⟩ := List.length_eq_one_iff.1 hlength
    simp only [onlyOperand] at h
    split at h
    · cases h
    · next hitem =>
      cases h
      exact .noOperand hls hitem
  · rw [onlyOperand_of_length_ne_one hlength] at h
    cases h
    exact .wrongCount hls hlength

/-! ### Calls -/

/-- The name of a call. -/
def callName (first : Glyph) (rest : List Glyph) : String :=
  String.ofList ((first :: rest.takeWhile Glyph.isLetter).map (·.item))

/-- Why a call is refused. The causes are in the order in which they are found. -/
inductive CallRefused (limit : Nat) (inner : Option Reader) (first : Glyph) (rest : List Glyph) :
    ParseError → Prop
  | unopened (h : ∀ g ∈ (rest.dropWhile Glyph.isLetter).head?, g.item ≠ '(') :
      CallRefused limit inner first rest
        ⟨.unknownFunction (callName first rest), .offset first.start⟩
  | tooDeep {opening : Glyph} {inside : List Glyph}
      (hinside : rest.dropWhile Glyph.isLetter = opening :: inside) (hopening : opening.item = '(')
      (hinner : inner = none) :
      CallRefused limit inner first rest ⟨.nestingTooDeep limit, .offset opening.start⟩
  | unclosed {opening : Glyph} {inside : List Glyph}
      (hinside : rest.dropWhile Glyph.isLetter = opening :: inside) (hopening : opening.item = '(')
      (hsplit : ArgumentList.split? 0 inside = none) :
      CallRefused limit inner first rest ⟨.missingClosingBracket, .offset opening.start⟩
  | argument {opening : Glyph} {inside argument : List Glyph} {reader : Reader}
      {arguments : ArgumentList} {e : ParseError}
      (hinside : rest.dropWhile Glyph.isLetter = opening :: inside) (hopening : opening.item = '(')
      (hinner : inner = some reader) (hsplit : ArgumentList.split? 0 inside = some arguments)
      (hargument : argument ∈ arguments.all)
      (h : ArgumentRefused reader (callName first rest) opening argument e) :
      CallRefused limit inner first rest e
  | call {atoms : List Atom} {e : ParseError}
      (h : Atom.call (callName first rest) atoms (.offset first.start) = .error e) :
      CallRefused limit inner first rest e

theorem callRefused_of_cutCall (h : cutCall limit inner first rest = .error e) :
    CallRefused limit inner first rest e := by
  simp only [cutCall] at h
  split at h
  · next hnil =>
    cases h
    exact .unopened (by simp [hnil])
  next opening inside hinside =>
  split at h
  · next hopening =>
    cases h
    refine .unopened ?_
    rw [hinside]
    rintro _ ⟨⟩
    exact hopening
  next hopening =>
  have hopening := not_not.1 hopening
  split at h
  · cases h
    exact .tooDeep hinside hopening rfl
  split at h
  · next hsplit =>
    cases h
    exact .unclosed hinside hopening hsplit
  · cases h

theorem callRefused_of_readCall (h : readCall limit inner first rest = .error e) :
    CallRefused limit inner first rest e := by
  rw [readCall] at h
  rcases Except.bind_eq_error_iff.1 h with h | ⟨⟨reader, call⟩, hcut, h⟩
  · exact callRefused_of_cutCall h
  obtain ⟨opening, inside, arguments, hinside, hopening, hinner, hsplit, rfl⟩ :=
    cutCall_eq_ok_iff.1 hcut
  rcases Except.bind_eq_error_iff.1 h with h | ⟨lexeme, -, h⟩
  · rcases Except.bind_eq_error_iff.1 h with h | ⟨atoms, -, h⟩
    · obtain ⟨argument, hargument, h⟩ := Except.exists_mem_of_mapM_eq_error h
      exact .argument hinside hopening hinner hsplit hargument (argumentRefused_of_readArgument h)
    rcases Except.bind_eq_error_iff.1 h with h | ⟨a, -, h⟩
    · exact .call h
    · cases h
  · cases h

/-! ### One step -/

/-- Why a step is refused. -/
inductive StepRefused (limit : Nat) (inner : Option Reader) (g : Glyph) (rest : List Glyph) :
    ParseError → Prop
  | foreign (hclass : g.charClass = .foreign) :
      StepRefused limit inner g rest ⟨.unexpectedCharacter g.item, .offset g.start⟩
  /-- All the digits and points that stand in a row are no number. -/
  | literal {sign digits after : List Glyph} (hrun : g :: rest = sign ++ digits ++ after)
      (hsign : sign = [] ∨ sign = [g] ∧ g.item = '-') (hdigits : digits ≠ [])
      (hnumeral : ∀ d ∈ digits, d.isNumeral = true)
      (hafter : after.head?.any Glyph.isNumeral = false)
      (h : Decimal.read? (digits.map (·.item)) = none) :
      StepRefused limit inner g rest
        ⟨.malformedLiteral (String.ofList (digits.map (·.item))), .offset g.start⟩
  | call {e : ParseError} (hletter : g.isLetter = true) (h : CallRefused limit inner g rest e) :
      StepRefused limit inner g rest e

theorem readLiteral_eq_error {start : Nat} {negative : Bool}
    (h : readLiteral start negative first rest = .error e) :
    Decimal.read? ((first :: rest.takeWhile Glyph.isNumeral).map (·.item)) = none ∧
      e = ⟨.malformedLiteral (String.ofList
        ((first :: rest.takeWhile Glyph.isNumeral).map (·.item))), .offset start⟩ := by
  simp only [readLiteral] at h
  split at h
  · next hread =>
    cases h
    exact ⟨hread, rfl⟩
  · split at h <;> cases h

theorem stepRefused_of_readLiteral {negative : Bool} {sign after : List Glyph}
    (hrun : g :: rest = sign ++ first :: after) (hsign : sign = [] ∨ sign = [g] ∧ g.item = '-')
    (hfirst : first.isNumeral = true) (h : readLiteral g.start negative first after = .error e) :
    StepRefused limit inner g rest e := by
  obtain ⟨hread, rfl⟩ := readLiteral_eq_error h
  have hdigits : g :: rest = sign ++ (first :: after.takeWhile Glyph.isNumeral) ++
      after.dropWhile Glyph.isNumeral := by
    rw [hrun, List.append_assoc, List.cons_append, List.takeWhile_append_dropWhile]
  refine .literal hdigits hsign (List.cons_ne_nil _ _) ?_ (head?_any_dropWhile _ _) hread
  intro d hd
  rcases List.mem_cons.1 hd with rfl | hd
  · exact hfirst
  · exact List.all_eq_true.1 List.all_takeWhile d hd

theorem stepRefused_of_readOne (h : readOne limit inner before g rest = .error e) :
    StepRefused limit inner g rest e := by
  unfold readOne at h
  cases hclass : g.charClass <;> simp only [hclass] at h
  case numeral =>
    exact stepRefused_of_readLiteral (List.nil_append _).symm (.inl rfl)
      (Glyph.charClass_eq_numeral_iff.1 hclass) h
  case letter => exact .call (Glyph.isLetter_of_charClass hclass) (callRefused_of_readCall h)
  case operator o =>
    split at h
    case isFalse => cases h
    case isTrue hsign =>
      obtain ⟨rfl, -⟩ := hsign
      have hg : g.item = '-' := Glyph.item_of_charClass hclass
      cases hnumeral : rest.head?.any Glyph.isNumeral with
      | false =>
        rw [readSign_of_not_isNumeral hnumeral] at h
        cases h
      | true =>
        obtain ⟨next, hnext, hnumeral⟩ := (Option.any_eq_true _ _).1 hnumeral
        obtain ⟨after, rfl⟩ := List.head?_eq_some_iff.1 hnext
        rw [readSign_of_isNumeral hnumeral] at h
        exact stepRefused_of_readLiteral List.singleton_append.symm (.inr ⟨rfl, hg⟩) hnumeral h
  case foreign =>
    cases h
    exact .foreign hclass
  all_goals cases h

/-! ### All steps -/

/-- Behind a number that ends with a digit or a point, no other number begins. -/
theorem head?_rest_of_readLiteral {start : Nat} {negative : Bool} {r : Reading}
    (h : readLiteral start negative first rest = .ok r) (hlast : r.last.isNumeral = true) :
    r.rest.head?.any Glyph.isNumeral = false := by
  simp only [readLiteral] at h
  split at h
  · cases h
  split at h
  · next mark after hmark =>
    cases h
    obtain ⟨hitem, -⟩ := imaginaryMark?_eq_some_iff.1 hmark
    simp [Glyph.isNumeral, hitem] at hlast
  · cases h
    exact head?_any_dropWhile _ _

/-- The digits and points in a row are used up by a single step. -/
theorem StepRead.exists_used {r : Reading} (h : StepRead limit inner g rest r) :
    ∃ used last, g :: rest = used ++ r.rest ∧ used.getLast? = some last ∧
      (last.isNumeral = true → r.rest.head?.any Glyph.isNumeral = false) := by
  have single {token : Token Atom} (hg : g.isNumeral = false) :
      ∃ used last, g :: rest = used ++ (Reading.single token g rest).rest ∧
        used.getLast? = some last ∧ (last.isNumeral = true →
          (Reading.single token g rest).rest.head?.any Glyph.isNumeral = false) :=
    ⟨[g], g, rfl, rfl, fun hnumeral => by simp [hg] at hnumeral⟩
  cases h with
  | @literal negative sign first after r hrun hfirst h =>
    obtain ⟨used, rfl, hlast, -⟩ := exists_used_of_readLiteral h
    refine ⟨sign ++ first :: used, r.last, by rw [hrun]; simp, ?_, head?_rest_of_readLiteral h⟩
    rw [List.getLast?_append, hlast, Option.some_or]
  | free hg | imaginaryUnit hg | opening hg | closing hg =>
    exact single (by simp [Glyph.isNumeral, hg])
  | @operator o hg => exact single (by cases o <;> simp [Glyph.isNumeral, hg, Operator.symbol])
  | negation hg => exact ⟨[g], g, rfl, rfl, by simp [Glyph.isNumeral, hg]⟩
  | call hclass h =>
    obtain ⟨used, rfl, hlast, -⟩ := exists_used_of_readCall h
    obtain ⟨_, _, _, arguments, _, _, -, -, -, hsplit, -, -, rfl⟩ := readCall_eq_ok_iff.1 h
    obtain ⟨-, -, -, hclosing⟩ := ArgumentList.exists_inside_of_split? hsplit
    exact ⟨g :: used, _, rfl, hlast, by simp [Glyph.isNumeral, hclosing]⟩

/-- Glyphs are refused where a step is, which does not begin inside a number. -/
theorem exists_stepRefused_of_scan (h : scan limit inner before gs = .error e) :
    ∃ passed g rest, gs = passed ++ g :: rest ∧
      (passed.getLast?.any Glyph.isNumeral = true → g.isNumeral = false) ∧
      StepRefused limit inner g rest e := by
  induction before, gs using scan_induction with
  | nil =>
    rw [scan_nil] at h
    cases h
  | cons before g rest ih =>
    rw [scan_cons] at h
    rcases Except.bind_eq_error_iff.1 h with hrefused | ⟨r, hr, h⟩
    · exact ⟨[], g, rest, rfl, by simp, stepRefused_of_readOne hrefused⟩
    obtain ⟨passed, g', rest', hrest, hpassed, hrefused⟩ :=
      ih (some r.last) r.rest (length_of_readOne hr) (Except.map_eq_error_iff.1 h)
    obtain ⟨used, last, hused, hlast, hnumeral⟩ := (stepRead_of_readOne hr).exists_used
    refine ⟨used ++ passed, g', rest', by rw [hused, hrest, List.append_assoc], ?_, hrefused⟩
    rw [List.getLast?_append]
    cases hlast' : passed.getLast? with
    | some last' => simpa [hlast'] using hpassed
    | none =>
      obtain rfl := List.getLast?_eq_none_iff.1 hlast'
      rw [hrest] at hnumeral
      simpa [hlast] using hnumeral

theorem exists_stepRefused_of_read {levels : Nat} (h : read limit levels gs = .error e) :
    ∃ passed g rest, gs = passed ++ g :: rest ∧
      (passed.getLast?.any Glyph.isNumeral = true → g.isNumeral = false) ∧
      StepRefused limit (innerReader limit levels) g rest e := by
  rw [read_eq] at h
  exact exists_stepRefused_of_scan (Except.map_eq_error_iff.1 h)

end Lexeme

end ComplexFormula
