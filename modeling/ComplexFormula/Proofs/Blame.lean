import ComplexFormula.Proofs.Leaves
import ComplexFormula.Proofs.Pointing
import ComplexFormula.Proofs.Relocation
import ComplexFormula.Proofs.Signs
import ComplexFormula.Proofs.Splitting

/-!
Which of several mistakes in a call is reported. A call that is not closed is refused for that. Else
its arguments are looked at from the first to the last, and the first one that is no single operand
is reported as it would be on its own. Only then is the name looked up, and last the arguments are
counted. So nothing that comes later in this order makes a difference.
-/

namespace ComplexFormula

open List (Forall₂)

/-! ### Names -/

namespace Text

theorem isAlpha_toLower {c : Char} (h : c.isAlpha = true) : c.toLower.isAlpha = true := by
  by_contra hlower
  rw [Bool.not_eq_true] at hlower
  rw [toLower_eq_self hlower, h] at hlower
  cases hlower

theorem isBlank_of_isAlpha {c : Char} (h : c.isAlpha = true) : isBlank c = false := by
  rw [isAlpha_iff] at h
  simp only [Char.toNat_val] at h
  simp only [isBlank, blankRanges, List.any_cons, List.any_nil, Bool.or_false,
    Bool.or_eq_false_iff, Bool.and_eq_false_iff, decide_eq_false_iff_not]
  omega

/-- A run of letters, perhaps with blanks in it or behind it, that begins neither with the variable
nor with the imaginary unit. -/
def IsName (name : String) : Prop :=
  ∃ c cs, name.toList = c :: cs ∧ c.isAlpha = true ∧ c.toLower ≠ 'x' ∧ c.toLower ≠ 'i' ∧
    ∀ d ∈ cs, d.isAlpha = true ∨ isBlank d = true

/-- A name as errors show it, in small letters and without blanks. -/
def shown (name : String) : String :=
  String.ofList (spelling name)

end Text

theorem Glyph.charClass_of_isAlpha {g : Glyph} (h : g.item.isAlpha = true) (hx : g.item ≠ 'x')
    (hi : g.item ≠ 'i') : g.charClass = .letter := by
  have hdigit : g.item.isDigit = false := by
    by_contra hdigit
    rw [Text.isAlpha_eq_false_of_isDigit (Bool.not_eq_false _ ▸ hdigit)] at h
    cases h
  have hpoint : g.item ≠ '.' := by
    intro hpoint
    rw [hpoint] at h
    revert h
    decide
  simp [charClass, isNumeral, isLetter, hdigit, hpoint, hx, hi, h]

/-- The glyphs of a name are letters, the first of which begins a call. -/
theorem glyphsFrom_name {name : String} (h : Text.IsName name) (start : Nat) :
    ∃ g letters, glyphsFrom start name.toList = g :: letters ∧ g.start = start ∧
      g.charClass = .letter ∧ (∀ l ∈ letters, l.isLetter = true) ∧
      String.ofList ((g :: letters).map (·.item)) = Text.shown name := by
  obtain ⟨c, cs, hname, hc, hx, hi, hcs⟩ := h
  have hlower := Text.isAlpha_toLower hc
  refine ⟨⟨c.toLower, start, start + c.utf8Size⟩, glyphsFrom (start + c.utf8Size) cs, ?_, rfl,
    Glyph.charClass_of_isAlpha hlower hx hi, ?_, ?_⟩
  · rw [hname, glyphsFrom, if_neg (by simp [Text.isBlank_of_isAlpha hc])]
  · intro l hl
    obtain ⟨before, d, after, rfl, hblank, rfl⟩ := mem_glyphsFrom_iff.1 hl
    rcases hcs d (by simp) with hd | hd
    · exact Text.isAlpha_toLower hd
    · rw [hblank] at hd
      cases hd
  · have hitems := items_glyphsFrom start name.toList
    rw [hname, glyphsFrom, if_neg (by simp [Text.isBlank_of_isAlpha hc])] at hitems
    rw [Text.shown, Text.spelling, hname, ← hitems]

/-! ### Arguments -/

/-- A single parenthesis is not balanced. -/
theorem Balanced.singleton {nested : Bool} {c : Char} (h : Balanced nested [c]) :
    c ≠ '(' ∧ c ≠ ')' := by
  generalize hcs : [c] = cs at h
  cases h with
  | nil => cases hcs
  | char hopening hclosing => cases hcs; exact ⟨hopening, hclosing⟩
  | group => simp at hcs

namespace Formula

/-- On its own, the text is a single operand. -/
def IsOperand (f : Formula) : Prop :=
  ∃ l a, f.lexemes = .ok [l] ∧ l.item = .operand a

/-- Why the text `t`, as an argument of the function `name` in which calls may nest `levels` levels
deep, is refused. It begins at the byte `base`, and the parenthesis of the call stands at the byte
`bracket` of a formula with the limit `limit`. -/
inductive ArgumentError (limit levels : Nat) (name : String) (bracket base : Nat) (t : String) :
    ParseError → Prop
  /-- It cannot be read on its own. -/
  | unread {e : ParseError} (h : (Formula.mk t levels).lexemes = .error e) :
      ArgumentError limit levels name bracket base t (e.moved limit base)
  /-- It is empty or more than one token. This shows where it begins, or else at the parenthesis. -/
  | wrongCount {ls : List Lexeme} (h : (Formula.mk t levels).lexemes = .ok ls)
      (hls : ls.length ≠ 1) : ArgumentError limit levels name bracket base t
        ⟨.wrongCount name .tokensPerArgument 1 ls.length,
          .offset (((glyphs t).head?.map (base + ·.start)).getD bracket)⟩
  /-- It is a lone operator. -/
  | loneOperator {l : Lexeme} {o : Operator} (h : (Formula.mk t levels).lexemes = .ok [l])
      (hl : l.item = .operator o) : ArgumentError limit levels name bracket base t
        ⟨.missingOperand, .offset (base + l.start)⟩

variable {t name : String} {limit levels bracket base : Nat}

/-- No text that closes all its parentheses is a lone parenthesis. -/
theorem exists_operator_of_balanced {l : Lexeme} (h : (Formula.mk t levels).lexemes = .ok [l])
    (ht : Balanced false (Text.spelling t)) (hl : l.item.operand? = none) :
    ∃ o, l.item = .operator o := by
  obtain ⟨scanned, hscans, hmultiply⟩ := Formula.lexemes_eq_ok_iff.1 h
  obtain rfl := Lexeme.multiply_eq_singleton hmultiply
  have hitems : (glyphs t).map (·.item) = Text.spelling t := items_glyphsFrom 0 t.toList
  have hlone (hparenthesis : l.item.isParenthesis = true) :
      Balanced false [l.item.bracket] := by
    have hread := hscans.items_of_isParenthesis (by simpa using hparenthesis)
    rw [hitems] at hread
    rwa [hread] at ht
  obtain ⟨a | o | _ | _, start, stop⟩ := l
  · cases hl
  · exact ⟨o, rfl⟩
  · exact absurd rfl (hlone rfl).singleton.1
  · exact absurd rfl (hlone rfl).singleton.2

/-- A text that is no operand is refused as an argument. -/
theorem exists_argumentError (h : ¬ (Formula.mk t levels).IsOperand)
    (ht : Balanced false (Text.spelling t)) :
    ∃ e, ArgumentError limit levels name bracket base t e := by
  cases hread : (Formula.mk t levels).lexemes with
  | error e => exact ⟨_, .unread hread⟩
  | ok ls =>
    by_cases hlength : ls.length = 1
    · obtain ⟨l, rfl⟩ := List.length_eq_one_iff.1 hlength
      cases hitem : l.item.operand? with
      | some a => exact absurd ⟨l, a, hread, Token.operand?_eq_some_iff.1 hitem⟩ h
      | none =>
        obtain ⟨o, ho⟩ := exists_operator_of_balanced hread ht hitem
        exact ⟨_, .loneOperator hread ho⟩
    · exact ⟨_, .wrongCount hread hlength⟩

variable {opening : Glyph}

/-- An argument is refused where it stands for the reason that it has on its own. -/
theorem readArgument_of_argumentError {e : ParseError}
    (h : ArgumentError limit levels name opening.start base t e) :
    Lexeme.readArgument (Lexeme.read limit levels) name opening (glyphsFrom base t.toList) =
      .error e := by
  rw [Lexeme.readArgument_eq]
  cases h with
  | unread h =>
    rw [(read_moved limit base).1 _ h]
    rfl
  | @wrongCount ls h hls =>
    obtain ⟨ls', hls', halike⟩ := (read_moved limit base).2 _ h
    have hfirst : ((glyphsFrom base t.toList).headD opening).start =
        ((glyphs t).head?.map (base + ·.start)).getD opening.start := by
      have hglyphs := glyphsFrom_alike base 0 t.toList
      rw [Nat.add_zero] at hglyphs
      rw [glyphs]
      generalize glyphsFrom 0 t.toList = gs, glyphsFrom base t.toList = gs' at hglyphs
      cases hglyphs with
      | nil => rfl
      | cons hg _ => exact hg.start
    rw [hls', Except.ok_bind, hfirst, halike.length_eq]
    exact Lexeme.onlyOperand_of_length_ne_one (halike.length_eq ▸ hls)
  | @loneOperator l o h hl =>
    obtain ⟨ls', hls', halike⟩ := (read_moved limit base).2 _ h
    obtain ⟨l', _, hl', hnil, rfl⟩ := List.forall₂_cons_left_iff.1 halike
    cases hnil
    rw [hls', Except.ok_bind, Lexeme.onlyOperand, hl'.item, hl, hl'.start]
    rfl

theorem readArgument_of_isOperand (h : (Formula.mk t levels).IsOperand) (name : String)
    (opening : Glyph) (base : Nat) : ∃ b,
      Lexeme.readArgument (Lexeme.read limit levels) name opening (glyphsFrom base t.toList) =
        .ok b := by
  obtain ⟨l, a, hl, ha⟩ := h
  obtain ⟨_, hls', halike⟩ := (read_moved limit base).2 _ hl
  obtain ⟨l', _, hl', hnil, rfl⟩ := List.forall₂_cons_left_iff.1 halike
  cases hnil
  rw [Lexeme.readArgument_eq, hls', Except.ok_bind]
  exact ⟨a, Lexeme.onlyOperand_eq_ok_iff.2 ⟨l', rfl, hl'.item.trans ha⟩⟩

end Formula

/-! ### Calls -/

namespace Builtin

variable {α : Type} {unary : Unary → α → α} {binary : Binary → α → α → α} {name : String}
  {arguments : List α} {f : Builtin}

theorem call_of_unknown (h : ofName? name = none) (arguments : List α) (position : Position) :
    call unary binary name arguments position = .error ⟨.unknownFunction name, position⟩ := by
  simp only [call, h]

theorem call_of_wrongCount (h : ofName? name = some f) (hlength : arguments.length ≠ f.arity)
    (position : Position) : call unary binary name arguments position =
      .error ⟨.wrongCount f.name .arguments f.arity arguments.length, position⟩ := by
  simp only [call, h]
  rcases f with f | f <;> rcases arguments with _ | ⟨a, _ | ⟨b, _ | ⟨c, arguments⟩⟩⟩ <;>
    first | rfl | exact absurd rfl hlength

theorem exists_call_eq_ok (h : ofName? name = some f) (hlength : arguments.length = f.arity)
    (position : Position) : ∃ a, call unary binary name arguments position = .ok a := by
  rcases f with f | f
  · obtain ⟨a, rfl⟩ := List.length_eq_one_iff.1 hlength
    exact ⟨_, call_eq_ok_iff.2 (.inl ⟨f, a, h, rfl, rfl⟩)⟩
  · obtain ⟨a, b, rfl⟩ := List.length_eq_two.1 hlength
    exact ⟨_, call_eq_ok_iff.2 (.inr ⟨f, a, b, h, rfl, rfl⟩)⟩

end Builtin

namespace Formula

open Lexeme

/-- Reading at the top goes on from each moment that is reached there. In an argument there are
levels fewer. -/
theorem Reached.scan_eq {f : Formula} {levels : Nat} {before : Option Glyph} {read : List Lexeme}
    {gs : List Glyph} (h : Reached f levels before read gs) : levels ≤ f.depthLimit ∧
      (levels = f.depthLimit →
        scan f.depthLimit (innerReader f.depthLimit levels) none (glyphs f.text) =
          (read ++ ·) <$> scan f.depthLimit (innerReader f.depthLimit levels) before gs) := by
  induction h with
  | text => exact ⟨Nat.le_refl _, fun _ => (id_map _).symm⟩
  | step _ hread ih =>
    refine ⟨ih.1, fun hlevels => ?_⟩
    rw [ih.2 hlevels, scan_cons, hread, Except.ok_bind, Functor.map_map]
    simp only [List.append_assoc]
  | argument _ _ _ _ _ _ ih =>
    have hle := ih.1
    exact ⟨by omega, fun hlevels => by omega⟩

/-- At the top, where all levels are left, an error of a step is that of the formula. -/
theorem Reached.error_of_readOne {f : Formula} {levels : Nat} {before : Option Glyph}
    {read : List Lexeme} {g : Glyph} {rest : List Glyph} {e : ParseError}
    (h : Reached f levels before read (g :: rest)) (hlevels : levels = f.depthLimit)
    (hread : readOne f.depthLimit (innerReader f.depthLimit levels) before g rest = .error e) :
    f.lexemes = .error e ∧ f.build = .error e := by
  have hlexemes : f.lexemes = .error e := by
    have hscan := h.scan_eq.2 hlevels
    rw [scan_cons, hread, hlevels] at hscan
    rw [lexemes, ofText, read_eq, hscan]
    rfl
  refine ⟨hlexemes, ?_⟩
  rw [build, arena, terms, hlexemes]
  rfl

/-- What reading a call of the function `name` comes to, the name of which begins at the byte
`start`, on the texts `ts`, in which calls may nest `levels` levels deep. -/
structure CallOutcome (limit levels start : Nat) (name : String) (ts : List String)
    (outcome : Except ParseError Reading) : Prop where
  /-- The first text that is no operand is at fault, whatever the name and the texts behind it. -/
  argument {good more : List String} {t : String} (hts : ts = good ++ t :: more)
    (hgood : ∀ s ∈ good, (Formula.mk s levels).IsOperand) (ht : ¬ (Formula.mk t levels).IsOperand) :
    let bracket := start + name.utf8ByteSize
    let base := ArgumentList.startBehind (bracket + 1) good
    (∃ e, ArgumentError limit levels (Text.shown name) bracket base t e) ∧
      ∀ e, ArgumentError limit levels (Text.shown name) bracket base t e → outcome = .error e
  /-- If all are operands, the name comes next. -/
  unknownFunction (h : ∀ t ∈ ts, (Formula.mk t levels).IsOperand) :
    outcome = .error ⟨.unknownFunction (Text.shown name), .offset start⟩ ↔
      Builtin.ofName? (Text.shown name) = none
  /-- The number of the texts comes last. -/
  wrongCount (h : ∀ t ∈ ts, (Formula.mk t levels).IsOperand) {b : Builtin}
    (hb : Builtin.ofName? (Text.shown name) = some b) :
    outcome = .error ⟨.wrongCount b.name .arguments b.arity ts.length, .offset start⟩ ↔
      ts.length ≠ b.arity
  /-- Nothing else can be wrong. -/
  ok (h : ∀ t ∈ ts, (Formula.mk t levels).IsOperand) {b : Builtin}
    (hb : Builtin.ofName? (Text.shown name) = some b) (hlength : ts.length = b.arity) :
    ∃ r, outcome = .ok r

/-- A name is read up to the parenthesis of its call, and the arguments from there. -/
theorem cutCall_of_letters (limit : Nat) (reader : Reader) {g opening : Glyph}
    {letters : List Glyph} (hletters : ∀ l ∈ letters, l.isLetter = true) {name : String}
    (hname : String.ofList ((g :: letters).map (·.item)) = name) (hopening : opening.item = '(')
    (inside : List Glyph) :
    cutCall limit (some reader) g (letters ++ opening :: inside) =
      match ArgumentList.split? 0 inside with
      | none => .error ⟨.missingClosingBracket, .offset opening.start⟩
      | some arguments => .ok (reader, ⟨name, g.start, opening, arguments⟩) := by
  have hstop : (opening :: inside).head?.any Glyph.isLetter = false :=
    Glyph.isLetter_congr (g := ⟨'(', 0, 0⟩) hopening
  obtain ⟨htake, hdrop⟩ := takeWhile_append_of_forall hletters hstop
  cases hsplit : ArgumentList.split? 0 inside <;>
    simp only [cutCall, htake, hdrop, hname, if_neg (not_not_intro hopening), hsplit]

/-- The arguments are read in turn, and the call is made if all of them can be read. -/
theorem callOutcome_of_readInside {limit levels : Nat} {name : String} {ts : List String}
    (hbalanced : ∀ t ∈ ts, Balanced false (Text.spelling t)) (call : UnreadCall)
    (hname : call.name = Text.shown name)
    (hopening : call.opening.start = call.start + name.utf8ByteSize)
    (harguments : call.arguments.all =
      ArgumentList.glyphsOf (call.start + name.utf8ByteSize + 1) ts)
    (reading : Lexeme → Reading) :
    CallOutcome limit levels call.start name ts (do
      let lexeme ← readInside Atom.call (read limit levels) call
      pure (reading lexeme)) := by
  obtain ⟨_, start, opening, arguments⟩ := call
  obtain rfl : _ = Text.shown name := hname
  dsimp only at hopening harguments ⊢
  simp only [readInside, harguments]
  have hread (h : ∀ t ∈ ts, (Formula.mk t levels).IsOperand) :
      ∃ atoms, (ArgumentList.glyphsOf (start + name.utf8ByteSize + 1) ts).mapM
        (readArgument (read limit levels) (Text.shown name) opening) = .ok atoms ∧
          atoms.length = ts.length := by
    have hall : ∀ gs ∈ ArgumentList.glyphsOf (start + name.utf8ByteSize + 1) ts,
        ∃ b, readArgument (read limit levels) (Text.shown name) opening gs = .ok b := by
      intro gs hgs
      obtain ⟨t, ht, base, rfl⟩ := ArgumentList.exists_of_mem_glyphsOf hgs
      exact readArgument_of_isOperand (h t ht) _ _ _
    obtain ⟨atoms, hatoms⟩ := Except.exists_mapM_eq_ok hall
    refine ⟨atoms, hatoms, ?_⟩
    rw [← (Except.mapM_eq_ok_iff.1 hatoms).length_eq, ArgumentList.length_glyphsOf]
  constructor
  · intro good more t hts hgood ht
    have hmem : t ∈ ts := hts ▸ List.mem_append_right _ (.head _)
    refine ⟨exists_argumentError ht (hbalanced t hmem), fun e he => ?_⟩
    rw [← hopening] at he ⊢
    rw [hts, ArgumentList.glyphsOf_append, ArgumentList.glyphsOf,
      Except.mapM_append_cons_error _ (readArgument_of_argumentError he)]
    · rfl
    · intro gs hgs
      obtain ⟨s, hs, base, rfl⟩ := ArgumentList.exists_of_mem_glyphsOf hgs
      exact readArgument_of_isOperand (hgood s hs) _ _ _
  · intro h
    obtain ⟨atoms, hatoms, hlength⟩ := hread h
    rw [hatoms, Except.ok_bind, Atom.call]
    cases hb : Builtin.ofName? (Text.shown name) with
    | none =>
      rw [Builtin.call_of_unknown hb]
      exact iff_of_true rfl rfl
    | some b =>
      refine iff_of_false ?_ (Option.some_ne_none b)
      by_cases hcount : atoms.length = b.arity
      · obtain ⟨a, ha⟩ := Builtin.exists_call_eq_ok hb hcount _
        rw [ha]
        rintro ⟨⟩
      · rw [Builtin.call_of_wrongCount hb hcount]
        rintro ⟨⟩
  · intro h b hb
    obtain ⟨atoms, hatoms, hlength⟩ := hread h
    rw [hatoms, Except.ok_bind, Atom.call, ← hlength]
    by_cases hcount : atoms.length = b.arity
    · obtain ⟨a, ha⟩ := Builtin.exists_call_eq_ok hb hcount _
      rw [ha]
      refine iff_of_false ?_ (not_not_intro hcount)
      rintro ⟨⟩
    · rw [Builtin.call_of_wrongCount hb hcount]
      exact iff_of_true rfl hcount
  · intro h b hb hcount
    obtain ⟨atoms, hatoms, hlength⟩ := hread h
    obtain ⟨a, ha⟩ := Builtin.exists_call_eq_ok hb (hlength.trans hcount) (.offset start)
    rw [hatoms, Except.ok_bind, Atom.call, ha]
    exact ⟨_, rfl⟩

/-- Where a call is reached with a level left for its arguments, texts that are balanced and parted
by commas are its arguments just as they stand, and the first of its mistakes is reported: the first
argument that is no operand, then an unknown name, then a wrong number of arguments. If the
parenthesis of the call is not closed, that is reported, whatever follows it. At the top, what is
reported there is reported of the formula. -/
theorem outcome_of_reached_call {f : Formula} {levels start : Nat} {before : Option Glyph}
    {done : List Lexeme} {name tail : String} (hname : Text.IsName name)
    (h : Reached f (levels + 1) before done (glyphsFrom start (name ++ "(" ++ tail).toList)) :
    ∃ g rest, glyphsFrom start (name ++ "(" ++ tail).toList = g :: rest ∧
      let inside := glyphsFrom (start + name.utf8ByteSize + 1) tail.toList
      let outcome := readOne f.depthLimit (innerReader f.depthLimit (levels + 1)) before g rest
      (∀ (ts : List String) (behind : String), tail = ",".intercalate ts ++ ")" ++ behind →
        ts ≠ [] → (∀ t ∈ ts, Balanced false (Text.spelling t)) →
        (∃ arguments, ArgumentList.split? 0 inside = some arguments ∧
          arguments.all = ArgumentList.glyphsOf (start + name.utf8ByteSize + 1) ts) ∧
        CallOutcome f.depthLimit levels start name ts outcome) ∧
      ((¬ ∃ cs ds, Text.spelling tail = cs ++ ')' :: ds ∧ Balanced true cs) →
        outcome = .error ⟨.missingClosingBracket, .offset (start + name.utf8ByteSize)⟩) ∧
      (levels + 1 = f.depthLimit → ∀ e, outcome = .error e →
        f.lexemes = .error e ∧ f.build = .error e) := by
  obtain ⟨g, letters, hletters, hstart, hclass, hall, hshown⟩ := glyphsFrom_name hname start
  have hgs : glyphsFrom start (name ++ "(" ++ tail).toList =
      g :: (letters ++ ⟨'(', start + name.utf8ByteSize, start + name.utf8ByteSize + 1⟩ ::
        glyphsFrom (start + name.utf8ByteSize + 1) tail.toList) := by
    rw [String.append_assoc, glyphsFrom_append_text, glyphsFrom_append_text, hletters,
      glyphsFrom_opening]
    rfl
  rw [hgs] at h
  refine ⟨g, _, hgs, ?_⟩
  intro inside outcome
  have houtcome : outcome = readCall f.depthLimit (some (read f.depthLimit levels)) g _ :=
    readOne_of_letter hclass
  have hopening : Spanned.item
      ⟨'(', start + name.utf8ByteSize, start + name.utf8ByteSize + 1⟩ = '(' := rfl
  have hcut := cutCall_of_letters f.depthLimit (read f.depthLimit levels) hall hshown hopening
    inside
  rw [hstart] at hcut
  rw [readCall, hcut] at houtcome
  refine ⟨?_, ?_, fun hlevels e he => h.error_of_readOne hlevels he⟩
  · rintro ts behind rfl hts hbalanced
    obtain ⟨arguments, hsplit, harguments, -⟩ := ArgumentList.split?_intercalate hts hbalanced
      (start + name.utf8ByteSize + 1) behind
    refine ⟨⟨arguments, hsplit, harguments⟩, ?_⟩
    rw [houtcome, hsplit]
    exact callOutcome_of_readInside hbalanced ⟨_, start, _, arguments⟩ rfl rfl harguments _
  · intro hnone
    have hsplit : ArgumentList.split? 0 inside = none := by
      refine Option.eq_none_iff_forall_ne_some.2 fun arguments hsplit => hnone ?_
      have hcloses := ArgumentList.closes_of_split? hsplit
      rwa [items_glyphsFrom] at hcloses
    rw [houtcome, hsplit]
    rfl

/-- The second argument nests too deep, which is reported although the function is unknown and the
third argument is empty. Where the call is not closed, this is reported. -/
theorem outcome_of_reached_call_unknown :
    (Formula.mk "foo(x, cos(sin(x)), )" 2).build = .error ⟨.nestingTooDeep 2, .offset 14⟩ ∧
    (Formula.mk "foo((x, 2" 1).build = .error ⟨.missingClosingBracket, .offset 3⟩ := by
  have hletters : ∀ d ∈ ['o', 'o'], d.isAlpha = true := List.all_eq_true.1 rfl
  have hname : Text.IsName "foo" :=
    ⟨'f', ['o', 'o'], rfl, rfl, by decide, by decide, fun d hd => .inl (hletters d hd)⟩
  constructor
  · have hreached : Reached (Formula.mk "foo(x, cos(sin(x)), )" 2) 2 none []
        (glyphsFrom 0 ("foo" ++ "(" ++ "x, cos(sin(x)), )").toList) := .text
    obtain ⟨g, rest, -, hclosed, -, hbuild⟩ := outcome_of_reached_call hname hreached
    have hfree {nested : Bool} : Balanced nested ['x'] := .of_forall (by simp)
    have hinner : Balanced true (['s', 'i', 'n'] ++ '(' :: (['x'] ++ ')' :: [])) :=
      .append (.of_forall (by simp)) (.group hfree (.nil true))
    have hnested : Balanced false
        (['c', 'o', 's'] ++ '(' :: (['s', 'i', 'n', '(', 'x', ')'] ++ ')' :: [])) :=
      .append (.of_forall (by simp)) (.group hinner (.nil false))
    have hbalanced : ∀ t ∈ ["x", " cos(sin(x))", " "], Balanced false (Text.spelling t) := by
      simp only [List.forall_mem_cons]
      exact ⟨hfree, hnested, .nil false, nofun⟩
    have hx : (Formula.mk "x" 1).IsOperand :=
      ⟨⟨.operand .free, 0, 1⟩, .free, by decide +kernel, rfl⟩
    have hdeep : (Formula.mk " cos(sin(x))" 1).lexemes =
        .error ⟨.nestingTooDeep 1, .offset 8⟩ := by
      decide +kernel
    have htail : "x, cos(sin(x)), )" =
        ",".intercalate ["x", " cos(sin(x))", " "] ++ ")" ++ "" := by
      decide +kernel
    obtain ⟨-, houtcome⟩ := hclosed _ _ htail nofun hbalanced
    have hread : ¬ (Formula.mk " cos(sin(x))" 1).IsOperand := by
      rintro ⟨l, a, hl, -⟩
      cases hdeep.symm.trans hl
    have hsplit : ["x", " cos(sin(x))", " "] = ["x"] ++ " cos(sin(x))" :: [" "] := rfl
    obtain ⟨-, hall⟩ := houtcome.argument hsplit (by simpa using hx) hread
    exact (hbuild rfl _ (hall _ (.unread hdeep))).2
  · have hreached : Reached (Formula.mk "foo((x, 2" 1) 1 none []
        (glyphsFrom 0 ("foo" ++ "(" ++ "(x, 2").toList) := .text
    obtain ⟨g, rest, -, -, hunclosed, hbuild⟩ := outcome_of_reached_call hname hreached
    refine (hbuild rfl _ (hunclosed ?_)).2
    rintro ⟨cs, ds, hspelling, -⟩
    have hmem : ')' ∈ Text.spelling "(x, 2" := by simp [hspelling]
    revert hmem
    decide +kernel

end Formula

end ComplexFormula
