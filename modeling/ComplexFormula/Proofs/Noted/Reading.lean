import ComplexFormula.Proofs.Arguments
import ComplexFormula.Proofs.Leaves
import ComplexFormula.Proofs.Noted.Operand
import ComplexFormula.Proofs.Steps

/-!
Reading a text with its operands made ready as they are read, and each run of a function noted. A
call is run, if it is constant, as soon as its arguments are read, so what is run is noted while the
rest of the text is still unread.
-/

namespace ComplexFormula

open Builtin (Run Runner)

/-- A lexeme whose operand is ready for evaluation. -/
abbrev ReadyLexeme := Spanned (Token Operand)

/-- The lexeme with its operand made ready. -/
def Lexeme.ready (l : Lexeme) : ReadyLexeme :=
  Spanned.map (Token.map Atom.fold) l

/-- The calls in the operands of some lexemes, in the order in which they are read. -/
def Lexeme.calls (ls : List Lexeme) : List Call :=
  (Token.operands (ls.map (·.item))).flatMap Atom.calls

/-- A way to read all the lexemes of some glyphs with their operands ready, with runs in the monad
`m`. -/
abbrev ReadyReader (m : Type → Type) := ReaderM (ExceptT ParseError m) Operand

namespace ReadyLexeme

variable {m : Type → Type} [Monad m] (run : Runner m) (limit : Nat)

/-- The call of a function by name on operands that are ready. -/
def call (name : String) (arguments : List Operand) (position : Position) :
    ExceptT ParseError m Operand :=
  let made := Builtin.call (fun f a => do Operand.unaryM run f (← a))
    (fun f a b => do
      let left ← a
      Operand.binaryM run f left (← b))
    name (arguments.map pure) position
  match made with
  | .error e => throw e
  | .ok made => ExceptT.lift made

/-- Reads from the glyph `g`. No function is run unless a call is read. -/
def readOne (inner : Option (ReadyReader m)) (before : Option Glyph) (g : Glyph)
    (rest : List Glyph) : ExceptT ParseError m (Lexeme.Advance Operand rest) :=
  if g.charClass = .letter then
    match hcut : Lexeme.cutCall limit inner g rest with
    | .error e => throw e
    | .ok (reader, c) => do
      let lexeme ← Lexeme.readInside (call run) reader c
      pure ⟨⟨[lexeme], c.arguments.closing, c.arguments.rest⟩, Lexeme.length_of_cutCall hcut⟩
  else
    match hread : Lexeme.readOne limit none before g rest with
    | .error e => throw e
    | .ok r => pure ⟨⟨r.lexemes.map Lexeme.ready, r.last, r.rest⟩, Lexeme.length_of_readOne hread⟩

/-- Reads glyphs that may hold calls inside each other as many levels deep as are left. -/
def read : Nat → ReadyReader m :=
  Lexeme.nested fun inner gs => Lexeme.multiply <$> Lexeme.scanM (readOne run limit inner) none gs

end ReadyLexeme

/-! ### What a reading notes -/

variable {σ α β γ δ : Type} {note : σ → Run → σ} {R : β → α → Prop} {S : δ → γ → Prop}
  {runs : β → List Run} {c : ExceptT ParseError (StateM σ) α} {u : Except ParseError β}

/-- Whatever is noted before, the reading `c` is refused as `u` is. If it is not, it reads what goes
with what `u` reads, and notes the runs of that in turn. -/
structure Reads (note : σ → Run → σ) (R : β → α → Prop) (runs : β → List Run)
    (c : ExceptT ParseError (StateM σ) α) (u : Except ParseError β) : Prop where
  refused {e : ParseError} (h : u = .error e) (s : σ) : ∃ s', c.run.run s = (.error e, s')
  read {b : β} (h : u = .ok b) : ∃ a, R b a ∧ Noted note c.run (.ok a) (runs b)

namespace Reads

theorem error (e : ParseError) : Reads note R runs (throw e) (.error e) where
  refused h s := by
    cases h
    exact ⟨s, rfl⟩
  read h := by cases h

/-- What is read without any run. -/
theorem ok {a : α} {b : β} (h : R b a) (hruns : runs b = []) :
    Reads note R runs (pure a) (.ok b) where
  refused h := by cases h
  read h' := by
    cases h'
    exact ⟨a, h, hruns ▸ .pure _⟩

/-- What is read with runs but without an error. -/
theorem lift {c : StateM σ α} {a : α} {b : β} (h : R b a) (hc : Noted note c a (runs b)) :
    Reads note R runs (ExceptT.lift c) (.ok b) where
  refused h := by cases h
  read h' := by
    cases h'
    exact ⟨a, h, hc.map Except.ok⟩

/-- What is read without runs. -/
theorem lift_map {ready : β → α} (u : Except ParseError β) :
    Reads note (fun b a => a = ready b) (fun _ => []) (liftM (ready <$> u)) u := by
  cases u with
  | error e => exact .error e
  | ok b => exact .ok rfl rfl

/-- One reading after the other. -/
theorem bind (h : Reads note R runs c u) (more : β → δ → List Run)
    {k : α → ExceptT ParseError (StateM σ) γ} {w : β → Except ParseError δ} {all : δ → List Run}
    (hk : ∀ b a, u = .ok b → R b a → Reads note S (more b) (k a) (w b))
    (hall : ∀ b d, u = .ok b → w b = .ok d → all d = runs b ++ more b d) :
    Reads note S all (c >>= k) (u >>= w) := by
  cases u with
  | error e =>
    constructor
    · rintro e' ⟨⟩ s
      obtain ⟨s', hs⟩ := h.refused rfl s
      refine ⟨s', ?_⟩
      rw [ExceptT.run_bind, StateT.run_bind, hs]
      rfl
    · intro d hd
      cases hd
  | ok b =>
    obtain ⟨a, hR, hnoted⟩ := h.read rfl
    have hthen := hk b a rfl hR
    constructor
    · intro e he s
      obtain ⟨s', hs⟩ := hthen.refused he (List.foldl note s (runs b))
      refine ⟨s', ?_⟩
      rw [ExceptT.run_bind, StateT.run_bind, hnoted s]
      exact hs
    · intro d hd
      obtain ⟨z, hS, hmore⟩ := hthen.read hd
      refine ⟨z, hS, ?_⟩
      rw [hall b d rfl hd, ExceptT.run_bind]
      exact hnoted.bind hmore

/-- Something else is made of what is read. -/
theorem map (h : Reads note R runs c u) {f : α → γ} {g : β → δ} {all : δ → List Run}
    (hfg : ∀ b a, R b a → S (g b) (f a)) (hall : ∀ b, all (g b) = runs b) :
    Reads note S all (f <$> c) (g <$> u) := by
  rw [map_eq_pure_bind, map_eq_pure_bind]
  refine h.bind (fun _ _ => []) (fun b a _ hR => .ok (hfg b a hR) rfl) ?_
  rintro b _ - ⟨⟩
  rw [hall, List.append_nil]

/-- What is read for each item of a list. -/
theorem mapM {ι : Type} {f : ι → ExceptT ParseError (StateM σ) α} {g : ι → Except ParseError β}
    {fold : β → α} {is : List ι}
    (h : ∀ i, Reads note (fun b a => a = fold b) runs (f i) (g i)) :
    Reads note (fun bs as => as = bs.map fold) (List.flatMap runs) (is.mapM f) (is.mapM g) := by
  induction is with
  | nil => exact .ok rfl rfl
  | cons i is ih =>
    rw [List.mapM_cons, List.mapM_cons]
    refine (h i).bind (fun _ ds => ds.tail.flatMap runs) ?_ ?_
    · rintro b _ - rfl
      refine ih.bind (fun _ _ => []) ?_ ?_
      · rintro bs _ - rfl
        exact .ok rfl rfl
      · rintro bs _ - ⟨⟩
        exact (List.append_nil _).symm
    · intro b ds _ hds
      obtain ⟨bs, -, hbs⟩ := Except.bind_eq_ok_iff.1 hds
      cases hbs
      rfl

end Reads

/-- The call that an operand is, if it is one. -/
def Atom.outermost : Atom → List Call
  | unary f a => [⟨.unary f, [a]⟩]
  | binary f a b => [⟨.binary f, [a, b]⟩]
  | _ => []

/-- The calls in a call are those in its arguments and the call itself. -/
theorem Atom.calls_of_call {name : String} {arguments : List Atom} {position : Position} {a : Atom}
    (h : call name arguments position = .ok a) :
    a.calls = arguments.flatMap calls ++ a.outermost := by
  rcases Builtin.call_eq_ok_iff.1 h with ⟨f, b, -, rfl, rfl⟩ | ⟨f, b, c, -, rfl, rfl⟩ <;>
    simp [calls, outermost]

namespace Lexeme

@[simp] theorem calls_append (ls more : List Lexeme) :
    calls (ls ++ more) = calls ls ++ calls more := by
  simp [calls, Token.operands]

theorem calls_multiply (ls : List Lexeme) : calls (multiply ls) = calls ls := by
  rw [calls, operands_multiply, calls]

theorem calls_of_operand {l : Lexeme} {a : Atom} (h : l.item = .operand a) :
    calls [l] = a.calls := by
  simp [calls, Token.operands, h, Token.operand?]

/-- No step but a call reads one. -/
theorem calls_of_readOne {limit : Nat} {inner : Option Reader} {before : Option Glyph} {g : Glyph}
    {rest : List Glyph} {r : Reading} (hclass : g.charClass ≠ .letter)
    (h : readOne limit inner before g rest = .ok r) : calls r.lexemes = [] := by
  cases stepRead_of_readOne h with
  | literal _ _ h =>
    obtain ⟨z, stop, hlexemes⟩ := lexemes_of_readLiteral h
    rw [hlexemes]
    rfl
  | call hletter => exact absurd hletter hclass
  | _ => rfl

end Lexeme

namespace ReadyLexeme

variable {limit : Nat} {inner : Option (ReadyReader (StateM σ))} {reader : Option Reader}

/-- A call is run, if it is constant, when its arguments are ready. -/
theorem reads_call (name : String) (arguments : List Atom) (position : Position) :
    Reads note (fun b a => a = Atom.fold b) (fun a => Call.constantRuns a.outermost)
      (call (.noting note) name (arguments.map Atom.fold) position)
      (Atom.call name arguments position) := by
  unfold call Atom.call Builtin.call
  simp only [List.length_map]
  rcases Builtin.ofName? name with _ | f | f
  · exact .error _
  · rcases arguments with _ | ⟨a, _ | ⟨b, arguments⟩⟩
    · exact .error _
    · exact .lift rfl (.bind (.pure _) (Atom.noted_unaryM f a))
    · exact .error _
  · rcases arguments with _ | ⟨a, _ | ⟨b, _ | ⟨c, arguments⟩⟩⟩
    · exact .error _
    · exact .error _
    · exact .lift rfl (.bind (.pure _) (.bind (.pure _) (Atom.noted_binaryM f a b)))
    · exact .error _

/-- A reader that makes its operands ready notes the runs of the constant calls that it reads. -/
def Follows (note : σ → Run → σ) (ready : ReadyReader (StateM σ)) (reader : Reader) : Prop :=
  ∀ gs, Reads note (fun ls rs => rs = ls.map Lexeme.ready)
    (fun ls => Call.constantRuns (Lexeme.calls ls)) (ready gs) (reader gs)

theorem reads_readArgument {ready : ReadyReader (StateM σ)} {reader : Reader}
    (h : Follows note ready reader) (name : String) (opening : Glyph) (argument : List Glyph) :
    Reads note (fun b a => a = Atom.fold b) (fun a => Call.constantRuns a.calls)
      (Lexeme.readArgument ready name opening argument)
      (Lexeme.readArgument reader name opening argument) := by
  rw [Lexeme.readArgument_eq]
  refine (h argument).bind (fun _ _ => []) ?_ ?_
  · rintro ls _ - rfl
    have hmap : Lexeme.onlyOperand name (argument.headD opening).start (ls.map Lexeme.ready) =
        Atom.fold <$> Lexeme.onlyOperand name (argument.headD opening).start ls :=
      Lexeme.onlyOperand_map Atom.fold
    rw [hmap]
    exact .lift_map _
  · intro ls a _ ha
    obtain ⟨l, rfl, hl⟩ := Lexeme.onlyOperand_eq_ok_iff.1 ha
    rw [Lexeme.calls_of_operand hl, List.append_nil]

theorem reads_readInside {ready : ReadyReader (StateM σ)} {reader : Reader}
    (h : Follows note ready reader) (c : UnreadCall) :
    Reads note (fun l r => r = l.ready) (fun l => Call.constantRuns (Lexeme.calls [l]))
      (Lexeme.readInside (call (.noting note)) ready c)
      (Lexeme.readInside Atom.call reader c) := by
  -- what the call notes itself is what is left of its runs behind those of its arguments
  refine (Reads.mapM (reads_readArgument h c.name c.opening)).bind
    (fun atoms l => (Call.constantRuns (Lexeme.calls [l])).drop
      (atoms.flatMap fun a => Call.constantRuns a.calls).length) ?_ ?_
  · rintro atoms _ - rfl
    refine (reads_call c.name atoms _).bind (fun _ _ => []) ?_ ?_
    · rintro atom _ - rfl
      exact .ok rfl rfl
    · rintro atom _ hatom ⟨⟩
      rw [Lexeme.calls_of_operand rfl, Atom.calls_of_call hatom, Call.constantRuns_append,
        Call.constantRuns_flatMap, List.drop_left, List.append_nil]
  · intro atoms l _ hl
    obtain ⟨atom, hatom, hl⟩ := Except.bind_eq_ok_iff.1 hl
    cases hl
    rw [Lexeme.calls_of_operand rfl, Atom.calls_of_call hatom, Call.constantRuns_append,
      Call.constantRuns_flatMap, List.drop_left]

/-- A reading with its operands ready. -/
def FollowsReading {behind : List Glyph} (r : Reading) (ready : Lexeme.Advance Operand behind) :
    Prop :=
  ready.toReadingOf = ⟨r.lexemes.map Lexeme.ready, r.last, r.rest⟩

theorem reads_readOne (h : Option.Rel (Follows note) inner reader) (before : Option Glyph)
    (g : Glyph) (rest : List Glyph) :
    Reads note FollowsReading (fun r => Call.constantRuns (Lexeme.calls r.lexemes))
      (readOne (.noting note) limit inner before g rest)
      (Lexeme.readOne limit reader before g rest) := by
  rw [readOne]
  by_cases hclass : g.charClass = .letter
  · rw [if_pos hclass, Lexeme.readOne_of_letter hclass, Lexeme.readCall]
    rcases Lexeme.cutCall_rel h limit g rest with
      ⟨e, hready, hplain⟩ | ⟨ready, plain, c, hfollows, hready, hplain⟩
    · rw [hplain]
      split
      · next e' hcut =>
        cases hready.symm.trans hcut
        exact .error e
      · next hcut => cases hready.symm.trans hcut
    · rw [hplain]
      split
      · next hcut => cases hready.symm.trans hcut
      · next hcut =>
        cases hready.symm.trans hcut
        refine (reads_readInside hfollows c).bind (fun _ _ => []) ?_ ?_
        · rintro l _ - rfl
          exact .ok rfl rfl
        · rintro l _ - ⟨⟩
          exact (List.append_nil _).symm
  · have hcongr : Lexeme.readOne limit reader before g rest =
        Lexeme.readOne limit none before g rest := Lexeme.readOne_congr hclass
    rw [if_neg hclass]
    split
    · next e hread =>
      rw [hcongr, hread]
      exact .error e
    · next r hread =>
      rw [hcongr.trans hread]
      refine .ok rfl ?_
      rw [Lexeme.calls_of_readOne hclass hread]
      rfl

theorem reads_scan (h : Option.Rel (Follows note) inner reader) (before : Option Glyph)
    (gs : List Glyph) :
    Reads note (fun ls rs => rs = ls.map Lexeme.ready)
      (fun ls => Call.constantRuns (Lexeme.calls ls))
      (Lexeme.scanM (readOne (.noting note) limit inner) before gs)
      (Lexeme.scan limit reader before gs) := by
  induction before, gs using Lexeme.scan_induction with
  | nil before =>
    rw [Lexeme.scanM, Lexeme.scan_nil]
    exact .ok rfl rfl
  | cons before g rest ih =>
    rw [Lexeme.scanM, Lexeme.scan_cons]
    refine (reads_readOne h before g rest).bind
      (fun r ls => Call.constantRuns (Lexeme.calls (ls.drop r.lexemes.length))) ?_ ?_
    · rintro r ⟨_, hlength⟩ - ⟨⟩
      refine (ih (some r.last) r.rest hlength).map ?_ ?_
      · rintro tail _ rfl
        exact (List.map_append ..).symm
      · intro tail
        rw [List.drop_left]
    · intro r ls _ hls
      obtain ⟨tail, -, rfl⟩ := Except.map_eq_ok_iff.1 hls
      simp

theorem follows_read (limit levels : Nat) :
    Follows note (read (.noting note) limit levels) (Lexeme.read limit levels) := by
  have hscan {inner : Option (ReadyReader (StateM σ))} {reader : Option Reader}
      (h : Option.Rel (Follows note) inner reader) (gs : List Glyph) :
      Reads note (fun ls rs => rs = ls.map Lexeme.ready)
        (fun ls => Call.constantRuns (Lexeme.calls ls))
        (Lexeme.multiply <$> Lexeme.scanM (readOne (.noting note) limit inner) none gs)
        (Lexeme.multiply <$> Lexeme.scan limit reader none gs) := by
    refine (reads_scan h none gs).map ?_ ?_
    · rintro ls _ rfl
      exact Lexeme.multiply_map Atom.isNumber_fold ls
    · intro ls
      rw [Lexeme.calls_multiply]
  induction levels with
  | zero => exact hscan .none
  | succ levels ih => exact hscan (.some ih)

end ReadyLexeme

end ComplexFormula
