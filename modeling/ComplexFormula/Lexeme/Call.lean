import ComplexFormula.Lexeme.ArgumentList
import ComplexFormula.Lexeme.Literal

/-!
Reading a call: a name, and behind it the arguments, each of which has to be a single operand. How
the arguments are read and what is made of them is left open; a caller that may not open another
level passes no reader.
-/

namespace ComplexFormula

/-- A way to read all the lexemes of some glyphs, with what is done on the way in the monad `m`. -/
abbrev ReaderM (m : Type → Type) (α : Type) := List Glyph → m (List (Spanned (Token α)))

/-- A way to read all the lexemes of some glyphs, with operands as they are written. -/
abbrev Reader := ReaderM (Except ParseError) Atom

/-- A call whose arguments are cut out, but not read yet. -/
structure UnreadCall where
  name : String
  start : Nat
  opening : Glyph
  arguments : ArgumentList

namespace Lexeme

variable {α ρ : Type}

/-- Cuts out the call whose name begins with the glyph `first`, if there is a reader for its
arguments. -/
def cutCall (limit : Nat) (inner : Option ρ) (first : Glyph) (rest : List Glyph) :
    Except ParseError (ρ × UnreadCall) :=
  let name := String.ofList ((first :: rest.takeWhile Glyph.isLetter).map (·.item))
  match rest.dropWhile Glyph.isLetter with
  | [] => .error ⟨.unknownFunction name, .offset first.start⟩
  | opening :: inside =>
    if opening.item ≠ '(' then .error ⟨.unknownFunction name, .offset first.start⟩
    else match inner with
      | none => .error ⟨.nestingTooDeep limit, .offset opening.start⟩
      | some reader =>
        match ArgumentList.split? 0 inside with
        | none => .error ⟨.missingClosingBracket, .offset opening.start⟩
        | some arguments => .ok (reader, ⟨name, first.start, opening, arguments⟩)

/-- The operand that the lexemes of an argument of the function `name` are. That they are too many
or none shows at the byte `start`. -/
def onlyOperand (name : String) (start : Nat) : List (Spanned (Token α)) → Except ParseError α
  | [l] =>
    match l.item.operand? with
    | some a => .ok a
    | none => .error ⟨.missingOperand, .offset l.start⟩
  | ls => .error ⟨.wrongCount name .tokensPerArgument 1 ls.length, .offset start⟩

section

variable {m : Type → Type} [Monad m] [MonadLiftT (Except ParseError) m]

/-- Reads an argument of the function `name`. An empty argument shows at the `(` of its call. -/
def readArgument (reader : ReaderM m α) (name : String) (opening : Glyph) (argument : List Glyph) :
    m α := do
  let lexemes ← reader argument
  onlyOperand name (argument.headD opening).start lexemes

/-- Reads the arguments of a call and makes an operand of its name and of them. A faulty argument is
reported before the name is looked up. -/
def readInside (make : String → List α → Position → m α) (reader : ReaderM m α)
    (call : UnreadCall) : m (Spanned (Token α)) := do
  let operands ← call.arguments.all.mapM (readArgument reader call.name call.opening)
  let operand ← make call.name operands (.offset call.start)
  pure ⟨.operand operand, call.start, call.arguments.closing.stop⟩

end

/-- Reads the call whose name begins with the glyph `first`. -/
def readCall (limit : Nat) (inner : Option Reader) (first : Glyph) (rest : List Glyph) :
    Except ParseError Reading := do
  let (reader, call) ← cutCall limit inner first rest
  let lexeme ← readInside Atom.call reader call
  pure ⟨[lexeme], call.arguments.closing, call.arguments.rest⟩

theorem cutCall_eq_ok_iff {limit : Nat} {inner : Option ρ} {first : Glyph} {rest : List Glyph}
    {reader : ρ} {call : UnreadCall} : cutCall limit inner first rest = .ok (reader, call) ↔
      ∃ opening inside arguments, rest.dropWhile Glyph.isLetter = opening :: inside ∧
        opening.item = '(' ∧ inner = some reader ∧ ArgumentList.split? 0 inside = some arguments ∧
        call = ⟨String.ofList ((first :: rest.takeWhile Glyph.isLetter).map (·.item)), first.start,
          opening, arguments⟩ := by
  simp only [cutCall]
  constructor
  · intro h
    split at h
    · cases h
    next opening inside hinside =>
    split at h
    · cases h
    next hopening =>
    split at h
    · cases h
    split at h
    · cases h
    next arguments hsplit =>
    cases h
    exact ⟨opening, inside, arguments, hinside, Decidable.not_not.1 hopening, rfl, hsplit, rfl⟩
  · rintro ⟨opening, inside, arguments, hinside, hopening, rfl, hsplit, rfl⟩
    simp [hinside, hopening, hsplit]

/-- How a call is cut out does not depend on what its reader is. -/
theorem cutCall_rel {ρ' : Type} {R : ρ → ρ' → Prop} {inner : Option ρ} {inner' : Option ρ'}
    (h : Option.Rel R inner inner') (limit : Nat) (first : Glyph) (rest : List Glyph) :
    (∃ e, cutCall limit inner first rest = .error e ∧
      cutCall limit inner' first rest = .error e) ∨
    ∃ reader reader' call, R reader reader' ∧
      cutCall limit inner first rest = .ok (reader, call) ∧
      cutCall limit inner' first rest = .ok (reader', call) := by
  simp only [cutCall]
  split
  · exact .inl ⟨_, rfl, rfl⟩
  · split
    · exact .inl ⟨_, rfl, rfl⟩
    · cases h with
      | none => exact .inl ⟨_, rfl, rfl⟩
      | some hreader =>
        dsimp only
        split
        · exact .inl ⟨_, rfl, rfl⟩
        · exact .inr ⟨_, _, _, hreader, rfl, rfl⟩

/-- A call that is cut out leaves no more than stood behind its first letter. -/
theorem length_of_cutCall {limit : Nat} {inner : Option ρ} {first : Glyph} {rest : List Glyph}
    {reader : ρ} {call : UnreadCall} (h : cutCall limit inner first rest = .ok (reader, call)) :
    call.arguments.rest.length ≤ rest.length := by
  obtain ⟨opening, inside, arguments, hinside, -, -, hsplit, rfl⟩ := cutCall_eq_ok_iff.1 h
  have hdrop := (List.dropWhile_sublist (l := rest) Glyph.isLetter).length_le
  have hrest := ArgumentList.length_of_split? hsplit
  rw [hinside, List.length_cons] at hdrop
  exact Nat.le_trans (Nat.le_succ_of_le (Nat.le_of_lt hrest)) hdrop

/-- Reading a call leaves no more than stood behind its first letter. -/
theorem length_of_readCall {limit : Nat} {inner : Option Reader} {first : Glyph}
    {rest : List Glyph} {r : Reading} (h : readCall limit inner first rest = .ok r) :
    r.rest.length ≤ rest.length := by
  rw [readCall] at h
  cases hcut : cutCall limit inner first rest with
  | error e =>
    rw [hcut] at h
    cases h
  | ok cut =>
    obtain ⟨reader, call⟩ := cut
    rw [hcut] at h
    cases hinside : readInside Atom.call reader call with
    | error e => simp [hinside, bind, Except.bind] at h
    | ok lexeme =>
      simp only [hinside, bind, Except.bind, pure, Except.pure, Except.ok.injEq] at h
      subst h
      exact length_of_cutCall hcut

end Lexeme

end ComplexFormula
