import ComplexFormula.Proofs.Recognition
import ComplexFormula.Proofs.Refusal

/-!
When a `-` is a sign. The scanner goes by the last character that it used up, and this tells the
same as the last token that it read: an operand is awaited unless one ends with that token. So a `-`
behind an operand is the operator, and a `-` that belongs to a number or stands for a factor `-1`
comes first or behind an operator or a `(`.
-/

namespace ComplexFormula

theorem Token.endsOperand_eq_false_iff {α : Type} {t : Token α} :
    t.endsOperand = false ↔ (∃ o, t = .operator o) ∨ t = .opening := by
  cases t <;> simp [endsOperand]

namespace Lexeme

variable {limit : Nat} {inner : Option Reader} {before : Option Glyph} {g : Glyph}
  {rest : List Glyph} {r : Reading}

/-! ### The last character and the last token -/

/-- Whether an operand is awaited, going by the last lexeme that was read. -/
def awaitedBehind : Option Lexeme → Bool
  | none => true
  | some l => !l.item.endsOperand

/-- A number ends with a digit, a point or its mark. -/
theorem endsOperand_last_of_readLiteral {start : Nat} {negative : Bool} {first : Glyph}
    {after : List Glyph} (hfirst : first.isNumeral = true)
    (h : readLiteral start negative first after = .ok r) : r.last.endsOperand = true := by
  simp only [readLiteral] at h
  split at h
  · cases h
  split at h
  · next mark behind hmark =>
    cases h
    have hi : mark.item = 'i' := (imaginaryMark?_eq_some_iff.1 hmark).1
    simp [Glyph.endsOperand, hi]
  · cases h
    apply Glyph.endsOperand_of_isNumeral
    have hnumeral : ∀ d ∈ first :: after.takeWhile Glyph.isNumeral, d.isNumeral = true :=
      List.forall_mem_cons.2 ⟨hfirst, List.all_eq_true.1 List.all_takeWhile⟩
    exact hnumeral _ List.getLastD_mem_cons

/-- Behind a step an operand is awaited as its last token tells. -/
theorem awaitsOperand_of_readOne (h : readOne limit inner before g rest = .ok r) :
    awaitsOperand (some r.last) = awaitedBehind r.lexemes.getLast? := by
  cases stepRead_of_readOne h with
  | @literal _ _ first after _ _ hfirst hr =>
    rcases lexemes_of_readLiteral hr with ⟨z, stop, hlexemes⟩
    have hlast := endsOperand_last_of_readLiteral hfirst hr
    simp [awaitsOperand, awaitedBehind, Token.endsOperand, hlexemes, hlast]
  | call _ hr =>
    obtain ⟨_, _, _, arguments, _, _, -, -, -, hsplit, -, -, rfl⟩ := readCall_eq_ok_iff.1 hr
    obtain ⟨-, -, -, hclosing⟩ := ArgumentList.exists_inside_of_split? hsplit
    simp [awaitsOperand, awaitedBehind, Token.endsOperand, Glyph.endsOperand, hclosing]
  | @operator o hg =>
    cases o <;>
      simp [awaitsOperand, awaitedBehind, Token.endsOperand, Glyph.endsOperand, Reading.single,
        Spanned.map, Operator.symbol, hg]
  | free hg | imaginaryUnit hg | opening hg | closing hg | negation hg =>
    simp [awaitsOperand, awaitedBehind, Token.endsOperand, Glyph.endsOperand, Reading.single,
      Spanned.map, hg]

end Lexeme

namespace Formula

open Lexeme

/-- A moment that is reached in reading a formula: how many levels of calls are left, the last
character that was used up, what has been read so far, and what is left to read. An argument of a
call is read from its start with a level less, whether or not those in front of it can be read. -/
inductive Reached (f : Formula) : Nat → Option Glyph → List Lexeme → List Glyph → Prop
  | text : Reached f f.depthLimit none [] (glyphs f.text)
  | step {levels : Nat} {before : Option Glyph} {ls : List Lexeme} {g : Glyph} {rest : List Glyph}
      {r : Reading} (h : Reached f levels before ls (g :: rest))
      (hread : readOne f.depthLimit (innerReader f.depthLimit levels) before g rest = .ok r) :
      Reached f levels (some r.last) (ls ++ r.lexemes) r.rest
  | argument {levels : Nat} {before : Option Glyph} {ls : List Lexeme} {g opening : Glyph}
      {rest inside argument : List Glyph} {arguments : ArgumentList}
      (h : Reached f (levels + 1) before ls (g :: rest)) (hclass : g.charClass = .letter)
      (hinside : rest.dropWhile Glyph.isLetter = opening :: inside) (hopening : opening.item = '(')
      (harguments : ArgumentList.split? 0 inside = some arguments)
      (hargument : argument ∈ arguments.all) : Reached f levels none [] argument

variable {f : Formula} {levels : Nat} {before : Option Glyph} {ls : List Lexeme} {gs : List Glyph}

/-- Going by the last character is going by the last token. -/
theorem Reached.awaitsOperand_eq (h : Reached f levels before ls gs) :
    awaitsOperand before = awaitedBehind ls.getLast? := by
  cases h with
  | text => rfl
  | step _ hread =>
    rw [awaitsOperand_of_readOne hread,
      List.getLast?_append_of_ne_nil _ (lexemes_ne_nil_of_readOne hread)]
  | argument => rfl

/-- Each lexeme of a run is read in a step that is reached when those in front of it have been
read. -/
theorem Reached.exists_step (h : Reached f levels before ls gs) {tail : List Lexeme}
    (hscans : Scans f.depthLimit (innerReader f.depthLimit levels) before gs tail)
    {front after : List Lexeme} {l : Lexeme} (hsplit : tail = front ++ l :: after) :
    ∃ (read lead trail : List Lexeme) (before' : Option Glyph) (g : Glyph) (rest : List Glyph)
      (r : Reading), Reached f levels before' (ls ++ read) (g :: rest) ∧ g ∈ gs ∧
      readOne f.depthLimit (innerReader f.depthLimit levels) before' g rest = .ok r ∧
      r.lexemes = lead ++ l :: trail ∧ front = read ++ lead := by
  induction hscans generalizing ls front with
  | nil => simp at hsplit
  | @cons before g rest r tail hread _ ih =>
    rcases List.append_eq_append_iff.1 hsplit with ⟨middle, rfl, htail⟩ | ⟨middle, hr, hafter⟩
    · obtain ⟨read, lead, trail, before', g', rest', r', hreached, hg', hread', hr', rfl⟩ :=
        ih (h.step hread) htail
      obtain ⟨used, hused, -⟩ := exists_used_of_readOne hread
      refine ⟨r.lexemes ++ read, lead, trail, before', g', rest', r', ?_, ?_, hread', hr', ?_⟩
      · rwa [← List.append_assoc]
      · rw [hused]
        exact List.mem_append_right _ hg'
      · rw [List.append_assoc]
    · cases middle with
      | nil =>
        -- the lexeme is the first one of the steps behind this one
        rw [List.append_nil] at hr
        have htail : tail = [] ++ l :: after := hafter.symm
        obtain ⟨read, lead, trail, before', g', rest', r', hreached, hg', hread', hr', hfront⟩ :=
          ih (h.step hread) htail
        obtain ⟨used, hused, -⟩ := exists_used_of_readOne hread
        refine ⟨r.lexemes ++ read, lead, trail, before', g', rest', r', ?_, ?_, hread', hr', ?_⟩
        · rwa [← List.append_assoc]
        · rw [hused]
          exact List.mem_append_right _ hg'
        · rw [List.append_assoc, ← hfront, List.append_nil, hr]
      | cons m middle =>
        obtain ⟨rfl, rfl⟩ := List.cons.inj hafter
        refine ⟨[], front, middle, before, g, rest, r, ?_, .head _, hread, hr, rfl⟩
        rwa [List.append_nil]

end Formula

/-! ### What is read from a minus sign -/

namespace Lexeme

/-- What a lexeme that is read from a `-` can be, given the one in front of it: an operator, a
number with its sign where an operand is awaited, or one of the two that stand for a factor `-1`
there. -/
inductive ReadsMinus (left : Option Lexeme) (l : Lexeme) : Prop
  | operator (h : l.item = .operator .sub)
  | number (z : ComplexFloat) (h : l.item = .operand (.number z))
      (hleft : ∀ m ∈ left, (∃ o, m.item = .operator o) ∨ m.item = .opening)
  | times (h : l.item = .operator .mul)
      (hleft : left = some ⟨.operand (.number .minusOne), l.start, l.stop⟩)

variable {limit : Nat} {inner : Option Reader} {before : Option Glyph} {g : Glyph}
  {rest : List Glyph} {r : Reading} {left : Option Lexeme} {l : Lexeme}

theorem awaitedBehind_eq_true_iff : awaitedBehind left = true ↔
    ∀ m ∈ left, (∃ o, m.item = .operator o) ∨ m.item = .opening := by
  cases left with
  | none => simp [awaitedBehind]
  | some m => simp [awaitedBehind, Token.endsOperand_eq_false_iff]

/-- Behind the end of an operand a `-` is an operator. -/
theorem ReadsMinus.eq_operator (h : ReadsMinus left l) {m : Lexeme} (hm : m ∈ left)
    (hstart : m.start ≠ l.start) (hends : m.item.endsOperand = true) :
    l.item = .operator .sub := by
  cases h with
  | operator h => exact h
  | number z _ hleft =>
    have hfalse := Token.endsOperand_eq_false_iff.2 (hleft m hm)
    simp [hends] at hfalse
  | times _ hleft =>
    rw [hleft] at hm
    cases hm
    exact absurd rfl hstart

/-- None of these is multiplied by what stands in front of it. -/
theorem ReadsMinus.not_beginsFactor (h : ReadsMinus left l) : beginsFactor l.item = false := by
  cases h with
  | operator h => rw [h]; rfl
  | number z h _ => rw [h]; rfl
  | times h _ => rw [h]; rfl

/-- A step from a `-` reads an operator, or else an operand is awaited and it reads a number or a
factor `-1`. -/
theorem readsMinus_of_readOne (hg : g.item = '-') (h : readOne limit inner before g rest = .ok r)
    {earlier lead trail : List Lexeme}
    (hbefore : awaitsOperand before = awaitedBehind earlier.getLast?)
    (hsplit : r.lexemes = lead ++ l :: trail) : ReadsMinus (earlier ++ lead).getLast? l := by
  have hclass : g.charClass = .operator .sub := by
    rw [Glyph.charClass_congr (g := ⟨'-', 0, 0⟩) hg]
    rfl
  have hsub (hr : r = .single (.operator .sub) g rest) :
      ReadsMinus (earlier ++ lead).getLast? l := by
    subst hr
    rcases List.singleton_eq_append_iff.1 hsplit with ⟨rfl, hl⟩ | ⟨rfl, hl⟩
    · cases hl
      exact .operator rfl
    · cases hl
  simp only [readOne, hclass, true_and] at h
  cases hawaits : awaitsOperand before with
  | false =>
    rw [hawaits] at h
    exact hsub (Except.ok.inj h).symm
  | true =>
    have hleft := awaitedBehind_eq_true_iff.1 (hbefore.symm.trans hawaits)
    rw [hawaits, if_pos rfl] at h
    cases hnumeral : rest.head?.any Glyph.isNumeral with
    | true =>
      obtain ⟨next, hnext, hnumeral⟩ := (Option.any_eq_true _ _).1 hnumeral
      obtain ⟨after, rfl⟩ := List.head?_eq_some_iff.1 hnext
      rw [readSign_of_isNumeral hnumeral] at h
      obtain ⟨z, stop, hr⟩ := lexemes_of_readLiteral h
      rw [hr] at hsplit
      rcases List.singleton_eq_append_iff.1 hsplit with ⟨rfl, hl⟩ | ⟨rfl, hl⟩
      · cases hl
        rw [List.append_nil]
        exact .number z rfl hleft
      · cases hl
    | false =>
      rw [readSign_of_not_isNumeral hnumeral] at h
      cases h
      split at hsplit
      · -- the two lexemes of a factor
        rcases lead with _ | ⟨m, _ | ⟨m', lead⟩⟩
        · cases hsplit
          rw [List.append_nil]
          exact .number .minusOne rfl hleft
        · cases hsplit
          rw [List.getLast?_concat]
          exact .times rfl rfl
        · simp at hsplit
      · exact hsub (congrArg (ReadingOf.mk · g rest) (if_neg ‹_›))

/-- Where each `*` is written out, a lexeme is such a `*`, or stands behind the same one as before
unless it begins a factor. -/
theorem split_of_multiply {ls front after : List Lexeme}
    (hsplit : multiply ls = front ++ l :: after) :
    (∃ front' after', ls = front' ++ l :: after' ∧
      (beginsFactor l.item = true ∨ front.getLast? = front'.getLast?)) ∨
    ∃ right ∈ ls, l = times right ∧ beginsFactor right.item = true := by
  fun_induction multiply ls generalizing front with
  | case1 => simp at hsplit
  | case2 last =>
    rcases List.singleton_eq_append_iff.1 hsplit with ⟨rfl, hlast⟩ | ⟨rfl, hlast⟩
    · exact .inl ⟨[], after, hlast.symm, .inr rfl⟩
    · cases hlast
  | case3 m right rest hjuxtaposed ih =>
    have hbegins : beginsFactor right.item = true := (Bool.and_eq_true_iff.1 hjuxtaposed).2
    rcases front with _ | ⟨_, _ | ⟨_, front⟩⟩
    · cases hsplit
      exact .inl ⟨[], _, rfl, .inr rfl⟩
    · cases hsplit
      exact .inr ⟨right, by simp, rfl, hbegins⟩
    · simp only [List.cons_append, List.cons.injEq] at hsplit
      obtain ⟨rfl, rfl, hrest⟩ := hsplit
      rcases ih hrest with ⟨front', after', hls, hlast⟩ | ⟨right', hright', heq⟩
      · refine .inl ⟨m :: front', after', by rw [hls, List.cons_append], ?_⟩
        cases front' with
        | nil => exact .inl ((List.cons.inj hls).1 ▸ hbegins)
        | cons u front' =>
          refine hlast.imp_right fun hlast => ?_
          simp [List.getLast?_cons, hlast]
      · exact .inr ⟨right', .tail _ hright', heq⟩
  | case4 m right rest _ ih =>
    cases front with
    | nil =>
      cases hsplit
      exact .inl ⟨[], _, rfl, .inr rfl⟩
    | cons u front =>
      obtain ⟨rfl, hrest⟩ := List.cons.inj hsplit
      rcases ih hrest with ⟨front', after', hls, hlast⟩ | ⟨right', hright', heq⟩
      · refine .inl ⟨m :: front', after', by rw [hls, List.cons_append], ?_⟩
        refine hlast.imp_right fun hlast => ?_
        rw [List.getLast?_cons, List.getLast?_cons, hlast]
      · exact .inr ⟨right', .tail _ hright', heq⟩

end Lexeme

namespace Formula

open Lexeme

variable {f : Formula} {ls front after : List Lexeme} {l : Lexeme}

/-- A glyph that starts where a `-` stands is that `-`. -/
theorem item_eq_of_start_eq {text : String} {p : Nat} (hat : Text.At text p '-') {g : Glyph}
    (hg : g ∈ glyphs text) (hstart : p = g.start) : g.item = '-' := by
  have hminus : ⟨'-', p, p + 1⟩ ∈ glyphs text := mem_glyphs_iff.2 ⟨p, '-', hat, rfl, rfl⟩
  rw [← eq_of_start_eq hminus hg hstart]

/-- A lexeme that is scanned where a `-` stands is read from it. -/
theorem readsMinus_of_scans
    (h : Scans f.depthLimit (innerReader f.depthLimit f.depthLimit) none (glyphs f.text) ls)
    (hsplit : ls = front ++ l :: after) (hat : Text.At f.text l.start '-') :
    ReadsMinus front.getLast? l := by
  obtain ⟨read, lead, trail, before, g, rest, r, hreached, hg, hread, hr, rfl⟩ :=
    Reached.text.exists_step h hsplit
  have hstart : l.start = g.start :=
    (lexemes_of_readOne hread (by rw [hr]; exact List.mem_append_right _ (.head _))).1
  exact readsMinus_of_readOne (item_eq_of_start_eq hat hg hstart) hread hreached.awaitsOperand_eq hr

/-- A lexeme where a `-` stands is read from it, also once each `*` is written out. -/
theorem readsMinus_of_lexemes (h : f.lexemes = .ok ls) (hsplit : ls = front ++ l :: after)
    (hat : Text.At f.text l.start '-') : ReadsMinus front.getLast? l := by
  obtain ⟨scanned, hscans, rfl⟩ := lexemes_eq_ok_iff.1 h
  rcases split_of_multiply hsplit with
    ⟨front', after', hscanned, hleft⟩ | ⟨right, hright, rfl, hbegins⟩
  · have hreads := readsMinus_of_scans hscans hscanned hat
    rcases hleft with hbegins | hleft
    · simp [hreads.not_beginsFactor] at hbegins
    · rwa [hleft]
  · rcases List.append_of_mem hright with ⟨front', after', hscanned⟩
    have hreads := readsMinus_of_scans hscans hscanned hat
    simp [hreads.not_beginsFactor] at hbegins

/-- At every moment the last character that was used up tells as the last token does whether an
operand is awaited. So in the tokens of a formula a `-` behind the end of an operand is the
operator, and it is part of a number or stands for a factor `-1` only at the front or behind an
operator or a `(`. -/
theorem readsMinus_of_reached (f : Formula) :
    (∀ levels before read rest, Reached f levels before read rest →
      (awaitsOperand before = true ↔
        read = [] ∨ ∃ last, read.getLast? = some last ∧ last.item.endsOperand = false)) ∧
    ∀ ls, f.lexemes = .ok ls → ∀ front l after, ls = front ++ l :: after →
      Text.At f.text l.start '-' → ReadsMinus front.getLast? l ∧
        ∀ left ∈ front.getLast?, left.start ≠ l.start → left.item.endsOperand = true →
          l.item = .operator .sub := by
  refine ⟨?_, ?_⟩
  · intro levels before read rest h
    rw [h.awaitsOperand_eq]
    cases hlast : read.getLast? with
    | none => simp [awaitedBehind, List.getLast?_eq_none_iff.1 hlast]
    | some last =>
      have hne : read ≠ [] := by
        rintro rfl
        cases hlast
      simp [awaitedBehind, hne]
  · intro ls h front l after hsplit hat
    have hreads := readsMinus_of_lexemes h hsplit hat
    exact ⟨hreads, fun left hleft hstart hends => hreads.eq_operator hleft hstart hends⟩

/-- In `x--x` the first `-` stands behind the variable, and the second one for a factor `-1`. -/
theorem readsMinus_of_reached_difference :
    (Formula.mk "x--x" 0).lexemes = .ok [⟨.operand .free, 0, 1⟩, ⟨.operator .sub, 1, 2⟩,
      ⟨.operand (.number .minusOne), 2, 3⟩, ⟨.operator .mul, 2, 3⟩, ⟨.operand .free, 3, 4⟩] ∧
    ReadsMinus (some ⟨.operand .free, 0, 1⟩) ⟨.operator .sub, 1, 2⟩ ∧
    ReadsMinus (some ⟨.operator .sub, 1, 2⟩) ⟨.operand (.number .minusOne), 2, 3⟩ := by
  have hlexemes : (Formula.mk "x--x" 0).lexemes = .ok [⟨.operand .free, 0, 1⟩,
      ⟨.operator .sub, 1, 2⟩, ⟨.operand (.number .minusOne), 2, 3⟩, ⟨.operator .mul, 2, 3⟩,
      ⟨.operand .free, 3, 4⟩] := by
    decide +kernel
  have hfirst : Text.At "x--x" 1 '-' := ⟨"x", "-x", rfl, rfl⟩
  have hsecond : Text.At "x--x" 2 '-' := ⟨"x-", "x", rfl, rfl⟩
  have hreads := (readsMinus_of_reached ⟨"x--x", 0⟩).2 _ hlexemes
  exact ⟨hlexemes, (hreads [_] _ [_, _, _] rfl hfirst).1, (hreads [_, _] _ [_, _] rfl hsecond).1⟩

end Formula

end ComplexFormula
