import ComplexFormula.Proofs.Arguments
import ComplexFormula.Proofs.Guarded.Cursor

/-!
Reading a call by the cursor. The arguments are noted as ranges of places while the cursor looks for
the end of the call, and cut out afterwards. Each range lies inside the glyphs, with its start not
behind its end.
-/

namespace ComplexFormula

/-- The steps that succeed one by one can each be gone on from. -/
theorem Except.mapM_bind_of_mapM_eq_ok {ε α β γ : Type} {f : α → Except ε β} {as : List α}
    {bs : List β} (h : as.mapM f = .ok bs) (g : β → Except ε γ) :
    (as.mapM fun a => f a >>= g) = bs.mapM g := by
  induction as generalizing bs with
  | nil =>
    cases h
    rfl
  | cons a as ih =>
    rw [List.mapM_cons] at h
    obtain ⟨b, hb, h⟩ := Except.bind_eq_ok_iff.1 h
    obtain ⟨bs, hbs, h⟩ := Except.bind_eq_ok_iff.1 h
    cases h
    rw [List.mapM_cons, List.mapM_cons, ih hbs, hb]
    rfl

namespace Cursor

/-- The glyphs between two places. -/
def slice (chars : List Glyph) (range : Nat × Nat) : Guarded (List Glyph) :=
  if range.1 ≤ range.2 ∧ range.2 ≤ chars.length then .ok ((chars.take range.2).drop range.1)
  else .error (.broken .argumentOutside)

/-- The ranges of the arguments of a call, and the cursor behind the call. The argument at the
cursor begins at `start`, and `level` parentheses are open in it. -/
def cut (chars : List Glyph) (opening start level cursor : Nat) :
    Guarded (List (Nat × Nat) × Nat) :=
  match _h : chars[cursor]? with
  | none => Guarded.refuse .missingClosingBracket opening
  | some g =>
    let cursor := cursor + 1
    if g.item = '(' then cut chars opening start (level + 1) cursor
    else if g.item = ')' ∧ level = 0 then do
      let stop ← Guarded.pred .cursorAtStart cursor
      pure ([(start, stop)], cursor)
    else if g.item = ')' then do
      let level ← Guarded.pred .levelAtBottom level
      cut chars opening start level cursor
    else if g.item = ',' ∧ level = 0 then do
      let stop ← Guarded.pred .cursorAtStart cursor
      let (ranges, behind) ← cut chars opening cursor level cursor
      pure ((start, stop) :: ranges, behind)
    else cut chars opening start level cursor
termination_by chars.length - cursor
decreasing_by
  all_goals
    have := (List.getElem?_eq_some_iff.1 _h).1
    omega

/-- A way to read all the lexemes of some glyphs, with arguments in lists. -/
abbrev OpenReader := ReaderM Guarded OpenOperand

/-- The operand that an argument of the function `name` is, given the lexemes of the argument. -/
def soleOperand (name : String) (start : Nat) (lexemes : List OpenLexeme) :
    Guarded OpenOperand :=
  if lexemes.length ≠ 1 then
    Guarded.refuse (.wrongCount name .tokensPerArgument 1 lexemes.length) start
  else do
    let lexeme ← Guarded.require .argumentWithoutToken lexemes.getLast?
    match lexeme.item.operand? with
    | some a => pure a
    | none => Guarded.refuse .missingOperand lexeme.start

/-- Reads an argument of the function `name`, whose call opens at a byte. -/
def lexArgument (reader : OpenReader) (name : String) (opening : Nat) (argument : List Glyph) :
    Guarded OpenOperand := do
  soleOperand name ((argument.head?.map (·.start)).getD opening) (← reader argument)

/-- Reads the arguments from the cursor on and calls the function `name` with them, whose name
begins at the byte `start`. -/
def lexInside (reader : OpenReader) (name : String) (start opening : Nat) (chars : List Glyph)
    (cursor : Nat) : Guarded (List OpenLexeme × Nat) := do
  let (ranges, behind) ← cut chars opening cursor 0 cursor
  let stop ← consumedEnd chars behind
  let arguments ← ranges.mapM fun range => do
    lexArgument reader name opening (← slice chars range)
  let a ← OpenOperand.makeByName name arguments start
  pure ([⟨.operand a, start, stop⟩], behind)

/-- Reads the call whose name begins at the cursor. -/
def lexCall (limit : Nat) (inner : Option OpenReader) (chars : List Glyph) (cursor : Nat) :
    Guarded (List OpenLexeme × Nat) := do
  let first ← Guarded.require .callWithoutName chars[cursor]?
  let (letters, cursor) := run Glyph.isLetter chars cursor
  let name := String.ofList (letters.map (·.item))
  match chars[cursor]? with
  | none => Guarded.refuse (.unknownFunction name) first.start
  | some opening =>
    if opening.item ≠ '(' then Guarded.refuse (.unknownFunction name) first.start
    else match inner with
      | none => Guarded.refuse (.nestingTooDeep limit) opening.start
      | some reader => lexInside reader name first.start opening.start chars (cursor + 1)

/-! ### The arguments are cut out where they stand -/

/-- The cut finds the arguments, the first of them behind the glyphs `begun` that are used up of it.
Each can be cut out, and the cursor stands behind the `)` that closes the call. -/
inductive Cuts (chars : List Glyph) (opening : Nat) (begun : List Glyph) :
    Guarded (List (Nat × Nat) × Nat) → Option ArgumentList → Prop
  | unclosed : Cuts chars opening begun (Guarded.refuse .missingClosingBracket opening) none
  | closed {arguments : ArgumentList} {ranges : List (Nat × Nat)} {used : List Glyph}
      {behind : Nat} (h : Stands chars behind used arguments.rest)
      (hlast : used.getLast? = some arguments.closing)
      (hranges : ranges.mapM (slice chars) = .ok ((begun ++ arguments.first) :: arguments.others)) :
      Cuts chars opening begun (.ok (ranges, behind)) (some arguments)

variable {chars used rest begun before : List Glyph} {opening cursor : Nat} {g : Glyph}

/-- What is used up behind a place is what lies between that place and the cursor. -/
theorem Stands.slice_eq (h : Stands chars cursor (before ++ begun) rest) :
    slice chars (before.length, cursor) = .ok begun := by
  rw [slice, h.chars_eq, h.cursor_eq, List.take_left', List.drop_left]
  · simp
  · rfl

theorem Cuts.push {u : Guarded (List (Nat × Nat) × Nat)} {a : Option ArgumentList}
    (h : Cuts chars opening (begun ++ [g]) u a) :
    Cuts chars opening begun u (a.map (ArgumentList.push g)) := by
  cases h with
  | unclosed => exact .unclosed
  | closed h hlast hranges => exact .closed h hlast (by simpa [ArgumentList.push] using hranges)

theorem Cuts.last {range : Nat × Nat} {behind : Nat} (hrange : slice chars range = .ok begun)
    (h : Stands chars behind used rest) (hlast : used.getLast? = some g) :
    Cuts chars opening begun (.ok ([range], behind)) (some ⟨[], [], g, rest⟩) :=
  .closed h hlast (by simp [hrange])

/-- An argument that ends at a comma stands in front of the others. -/
theorem Cuts.pushEmpty {range : Nat × Nat} {u : Guarded (List (Nat × Nat) × Nat)}
    {a : Option ArgumentList} (hrange : slice chars range = .ok begun)
    (h : Cuts chars opening [] u a) :
    Cuts chars opening begun (u >>= fun (ranges, behind) => pure (range :: ranges, behind))
      (a.map ArgumentList.pushEmpty) := by
  cases h with
  | unclosed => exact .unclosed
  | closed h hlast hranges =>
    refine .closed h hlast ?_
    rw [List.mapM_cons, hrange, hranges]
    simp [ArgumentList.pushEmpty, ArgumentList.all, bind, Except.bind, pure, Except.pure]

/-- Cutting follows the parentheses and commas as they come. -/
theorem cuts_split? (level : Nat) (h : Stands chars cursor (before ++ begun) rest) :
    Cuts chars opening begun (cut chars opening before.length level cursor)
      (ArgumentList.split? level rest) := by
  induction rest generalizing cursor level begun before with
  | nil =>
    have hnone : chars[cursor]? = none := h.getElem?
    rw [cut]
    split
    · exact .unclosed
    · simp_all
  | cons g rest ih =>
    have hsome : chars[cursor]? = some g := h.getElem?
    have hbump : Stands chars (cursor + 1) (before ++ (begun ++ [g])) rest := by
      simpa using h.bump
    have hslice := h.slice_eq
    rw [cut]
    split
    · simp_all
    next g' hg' =>
    obtain rfl : g' = g := by simpa [hg'] using hsome
    rw [ArgumentList.split?.eq_def]
    dsimp only
    by_cases hopening : g'.item = '('
    · rw [if_pos hopening, if_pos hopening]
      exact (ih _ hbump).push
    rw [if_neg hopening, if_neg hopening]
    by_cases hclosing : g'.item = ')'
    · cases level with
      | zero =>
        rw [if_pos ⟨hclosing, rfl⟩, if_pos hclosing]
        exact .last hslice h.bump List.getLast?_concat
      | succ level =>
        rw [if_neg (by simp), if_pos hclosing, if_pos hclosing]
        exact (ih _ hbump).push
    rw [if_neg (by simp [hclosing]), if_neg hclosing, if_neg hclosing]
    by_cases hcomma : g'.item = ',' ∧ level = 0
    · obtain ⟨hcomma, rfl⟩ := hcomma
      rw [if_pos ⟨hcomma, rfl⟩, if_pos ⟨hcomma, rfl⟩]
      have hnext : Stands chars (cursor + 1) (before ++ (begun ++ [g']) ++ []) rest := by
        simpa using hbump
      have hcut : Cuts chars opening [] (cut chars opening (cursor + 1) 0 (cursor + 1))
          (ArgumentList.split? 0 rest) := by
        have := ih 0 hnext
        rwa [← hbump.cursor_eq] at this
      exact .pushEmpty hslice hcut
    · rw [if_neg hcomma, if_neg hcomma]
      exact (ih _ hbump).push

/-! ### Calls -/

/-- A guarded reader reads what the reader reads. -/
def Guards (guarded : OpenReader) (reader : Reader) : Prop :=
  ∀ gs, guarded gs = Guarded.lift (List.map Lexeme.opened <$> reader gs)

/-- An argument is read as it is without a guard. -/
theorem lexArgument_eq {guarded : OpenReader} {reader : Reader}
    (hreader : Guards guarded reader) (name : String) (opening : Glyph) (argument : List Glyph) :
    lexArgument guarded name opening.start argument =
      Guarded.lift (Atom.opened <$> Lexeme.readArgument reader name opening argument) := by
  rw [lexArgument, Lexeme.readArgument_eq, hreader]
  have hstart : (argument.head?.map (·.start)).getD opening.start =
      (argument.headD opening).start := by
    cases argument <;> rfl
  rw [hstart]
  rcases reader argument with e | _ | ⟨lexeme, _ | ⟨other, lexemes⟩⟩
  · rfl
  · rfl
  · obtain ⟨_ | _ | _ | _, start, stop⟩ := lexeme <;> rfl
  · change soleOperand _ _ ((lexeme :: other :: lexemes).map Lexeme.opened) = _
    rw [soleOperand, if_pos (by simp), List.length_map]
    rfl

/-- The arguments are read where they are cut out, and the call is made with them. -/
theorem tracks_lexInside {guarded : OpenReader} {reader : Reader}
    (hreader : Guards guarded reader) (name : String) (first : Glyph) {opening : Glyph}
    (h : Stands chars cursor used rest) :
    Tracks chars (lexInside guarded name first.start opening.start chars cursor)
      ((match ArgumentList.split? 0 rest with
        | none => .error ⟨.missingClosingBracket, .offset opening.start⟩
        | some arguments => .ok (reader, ⟨name, first.start, opening, arguments⟩)) >>=
      fun (cut : Reader × UnreadCall) => do
        let lexeme ← Lexeme.readInside Atom.call cut.1 cut.2
        pure ⟨[lexeme], cut.2.arguments.closing, cut.2.arguments.rest⟩) := by
  have hbegun : Stands chars cursor (used ++ []) rest := by rwa [List.append_nil]
  have hcuts : Cuts chars opening.start [] (cut chars opening.start used.length 0 cursor)
      (ArgumentList.split? 0 rest) := cuts_split? 0 hbegun
  rw [← h.cursor_eq] at hcuts
  rw [lexInside]
  generalize cut chars opening.start cursor 0 cursor = u at hcuts ⊢
  generalize ArgumentList.split? 0 rest = o at hcuts ⊢
  cases hcuts with
  | unclosed => exact .refused _
  | @closed arguments ranges used behind hstands hlast hranges =>
    have hsteps : (ranges.mapM fun range => slice chars range >>=
          lexArgument guarded name opening.start) =
        Guarded.lift (List.map Atom.opened <$>
          arguments.all.mapM (Lexeme.readArgument reader name opening)) :=
      (Except.mapM_bind_of_mapM_eq_ok hranges _).trans
        (Guarded.mapM_eq_lift (lexArgument_eq hreader name opening) arguments.all)
    simp only [Except.ok_bind, hstands.consumedEnd hlast, hsteps, Lexeme.readInside]
    cases arguments.all.mapM (Lexeme.readArgument reader name opening) with
    | error e => exact .refused e
    | ok atoms =>
      simp only [Except.map_ok, Guarded.lift_ok, Except.ok_bind, Atom.makeByName_opened]
      cases Atom.call name atoms (.offset first.start) with
      | error e => exact .refused e
      | ok a => exact .read hstands hlast rfl

/-- A call is read as it is without a guard. -/
theorem tracks_lexCall {limit : Nat} {guarded : Option OpenReader}
    {inner : Option Reader} (hinner : Option.Rel Guards guarded inner)
    (h : Stands chars cursor used (g :: rest)) (hg : g.isLetter = true) :
    Tracks chars (lexCall limit guarded chars cursor) (Lexeme.readCall limit inner g rest) := by
  obtain ⟨hletters, hbehind⟩ := h.run_eq Glyph.isLetter
  rw [List.takeWhile_cons_of_pos hg] at hletters hbehind
  rw [List.dropWhile_cons_of_pos hg] at hbehind
  have hfirst : chars[cursor]? = some g := h.getElem?
  have hopening := hbehind.getElem?
  simp only [lexCall, hfirst, hletters, hopening, Lexeme.readCall, Lexeme.cutCall]
  generalize String.ofList ((g :: rest.takeWhile Glyph.isLetter).map (·.item)) = name
  cases hrest : rest.dropWhile Glyph.isLetter with
  | nil => exact .refused _
  | cons opening inside =>
    rw [hrest] at hbehind
    by_cases hitem : opening.item = '('
    · simp only [List.head?_cons, hitem, ne_eq, not_true_eq_false, if_false]
      cases hinner with
      | none => exact .refused _
      | some hreader => exact tracks_lexInside hreader name g hbehind.bump
    · simp only [List.head?_cons, hitem, ne_eq, not_false_eq_true, if_true]
      exact .refused _

end Cursor

end ComplexFormula
