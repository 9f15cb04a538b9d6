import ComplexFormula.Proofs.Bracketing
import ComplexFormula.Proofs.Signs
import ComplexFormula.Proofs.Traversal

/-!
Where an operand too many shows. Somewhere a number stands directly behind the end of an operand,
but the error has the position of the term that makes the second of the trees left over. The two
agree if that term is an operand and no operator in front of it has waited until behind it.
Otherwise they need not: in `x2+3` the second tree is made by the `+`.
-/

namespace ComplexFormula

variable {α : Type}

/-! ### Only trees can be too many -/

namespace Lexeme

variable {limit levels : Nat} {inner : Option Reader} {g : Glyph} {gs rest : List Glyph}
  {e : ParseError}

theorem StepRefused.fault_ne_extraOperand
    (hinner : ∀ reader ∈ inner, ∀ gs e, reader gs = .error e → e.fault ≠ .extraOperand)
    (h : StepRefused limit inner g rest e) : e.fault ≠ .extraOperand := by
  cases h with
  | foreign | literal => nofun
  | call _ h =>
    cases h with
    | unopened | tooDeep | unclosed => nofun
    | argument _ _ hreader _ _ h =>
      cases h with
      | unread h => exact hinner _ hreader _ _ h
      | noOperand | wrongCount => nofun
    | call h =>
      unfold Atom.call Builtin.call at h
      split at h <;> cases h <;> nofun

/-- Reading does not find an operand too many. -/
theorem fault_ne_extraOperand_of_read (h : read limit levels gs = .error e) :
    e.fault ≠ .extraOperand := by
  induction levels generalizing gs e with
  | zero =>
    obtain ⟨_, _, _, -, -, hrefused⟩ := exists_stepRefused_of_read h
    refine hrefused.fault_ne_extraOperand ?_
    rintro _ ⟨⟩
  | succ levels ih =>
    obtain ⟨_, _, _, -, -, hrefused⟩ := exists_stepRefused_of_read h
    refine hrefused.fault_ne_extraOperand ?_
    rintro _ ⟨⟩ gs e h
    exact ih h

end Lexeme

/-- The trees of a formula with an operand too many are those of its terms. -/
theorem Formula.termFault_of_build {f : Formula} {p : Nat}
    (h : f.build = .error ⟨.extraOperand, .offset p⟩) : ∃ ls terms, f.lexemes = .ok ls ∧
      Postfix.ofTokens f.depthLimit ls = .ok terms ∧
      Tree.TermFault terms ⟨.extraOperand, .offset p⟩ := by
  rw [build_eq] at h
  rcases Except.bind_eq_error_iff.1 (Except.map_eq_error_iff.1 h) with h | ⟨terms, hterms, h⟩
  · rcases Except.bind_eq_error_iff.1 h with h | ⟨ls, -, h⟩
    · exact absurd rfl (Lexeme.fault_ne_extraOperand_of_read h)
    · cases Postfix.ofTokens_eq_error_iff.1 h
  · obtain ⟨ls, hls, hterms⟩ := Except.bind_eq_ok_iff.1 hterms
    exact ⟨ls, terms, hls, hterms, Tree.ofPostfix_eq_error_iff.1 h⟩

/-! ### What waits in front of an operand -/

namespace Postfix

variable {limit : Nat} {waiting : List (Spanned Operator)} {frames : List Frame}
  {ts : List (Spanned (Token α))} {terms : List (Spanned (Term α))}

/-- An operator that waits comes out. -/
theorem mem_of_arrange (h : arrange limit waiting frames ts = .ok terms) {w : Spanned Operator}
    (hw : w ∈ waiting ∨ ∃ frame ∈ frames, w ∈ frame.outer) : w.map .operator ∈ terms := by
  induction ts generalizing waiting frames terms with
  | nil =>
    cases frames with
    | nil =>
      cases h
      exact List.mem_map_of_mem (hw.resolve_right (by simp))
    | cons => cases h
  | cons t ts ih =>
    obtain ⟨a | o | _ | _, start, stop⟩ := t
    · obtain ⟨terms, hterms, rfl⟩ := Except.map_eq_ok_iff.1 h
      exact .tail _ (ih hterms hw)
    · obtain ⟨terms, hterms, rfl⟩ := Except.map_eq_ok_iff.1 h
      rw [← List.takeWhile_append_dropWhile (p := (·.item.bindsBefore o)) (l := waiting),
        List.mem_append, or_assoc] at hw
      rcases hw with hw | hw
      · exact List.mem_append_left _ (List.mem_map_of_mem hw)
      · exact List.mem_append_right _ (ih hterms (hw.imp_left (.tail _)))
    · rw [arrange] at h
      split at h
      · cases h
      · refine ih h (.inr ?_)
        rcases hw with hw | ⟨frame, hframe, hw⟩
        · exact ⟨_, .head _, hw⟩
        · exact ⟨frame, .tail _ hframe, hw⟩
    · cases frames with
      | nil => cases h
      | cons innermost frames =>
        obtain ⟨terms, hterms, rfl⟩ := Except.map_eq_ok_iff.1 h
        rcases hw with hw | ⟨frame, hframe, hw⟩
        · exact List.mem_append_left _ (List.mem_map_of_mem hw)
        · refine List.mem_append_right _ (ih hterms ?_)
          rcases List.mem_cons.1 hframe with rfl | hframe
          · exact .inl hw
          · exact .inr ⟨frame, hframe, hw⟩

/-- What stands in front of an operand that comes out between `before` and `after`. -/
inductive Precedes (before after : List (Spanned (Term α))) : List (Spanned (Token α)) → Prop
  /-- Nothing but parentheses that open, and nothing has come out. -/
  | openings {front : List (Spanned (Token α))} (hfront : ∀ t ∈ front, t.item = .opening)
      (hbefore : before = []) : Precedes before after front
  /-- The end of an operand, and then nothing but parentheses that open. -/
  | operand (us : List (Spanned (Token α))) {vs : List (Spanned (Token α))} {t : Spanned (Token α)}
      (ht : t.item.endsOperand = true) (hvs : ∀ t ∈ vs, t.item = .opening) :
      Precedes before after (us ++ t :: vs)
  /-- An operator that comes out behind it. -/
  | operator {front : List (Spanned (Token α))} {w : Spanned Operator}
      (hfront : w.map .operator ∈ front) (hafter : w.map .operator ∈ after) :
      Precedes before after front

section Precedes

variable {before after : List (Spanned (Term α))} {front : List (Spanned (Token α))}
  {t : Spanned (Token α)}

/-- One more token in front makes no difference unless only parentheses that open come next. -/
theorem Precedes.cons (h : Precedes before after front) {before' : List (Spanned (Term α))}
    (hopenings : (∀ u ∈ front, u.item = .opening) → before = [] →
      Precedes before' after (t :: front)) : Precedes before' after (t :: front) := by
  cases h with
  | openings hfront hbefore => exact hopenings hfront hbefore
  | operand us hu hvs => exact .operand (t :: us) hu hvs
  | operator hfront hafter => exact .operator (.tail _ hfront) hafter

theorem Precedes.cons_of_endsOperand (h : Precedes before after front)
    (ht : t.item.endsOperand = true) (before' : List (Spanned (Term α))) :
    Precedes before' after (t :: front) :=
  h.cons fun hfront _ => .operand [] ht hfront

end Precedes

/-- Operators do not come out as an operand. -/
theorem append_eq_release_append {operators : List (Spanned Operator)} {a : α} {start stop : Nat}
    {before after : List (Spanned (Term α))}
    (h : before ++ ⟨.operand a, start, stop⟩ :: after = release operators ++ terms) :
    ∃ before', before = release operators ++ before' ∧
      terms = before' ++ ⟨.operand a, start, stop⟩ :: after := by
  rcases List.append_eq_append_iff.1 h with ⟨middle, hrelease, hmiddle⟩ | ⟨before', rfl, rfl⟩
  · cases middle with
    | nil =>
      rw [List.append_nil] at hrelease
      exact ⟨[], by simp [hrelease], hmiddle.symm⟩
    | cons t middle =>
      obtain ⟨rfl, -⟩ := List.cons.inj hmiddle
      have hmem : (⟨.operand a, start, stop⟩ : Spanned (Term α)) ∈ release operators := by
        simp [hrelease]
      obtain ⟨w, -, hw⟩ := List.mem_map.1 hmem
      cases hw
  · exact ⟨before', rfl, rfl⟩

/-- In front of an operand stands the end of another one or an operator that comes out behind it,
unless there are only parentheses that open. -/
theorem exists_precedes_of_arrange {before after : List (Spanned (Term α))} {a : α}
    {start stop : Nat}
    (h : arrange limit waiting frames ts = .ok (before ++ ⟨.operand a, start, stop⟩ :: after)) :
    ∃ front rest, ts = front ++ ⟨.operand a, start, stop⟩ :: rest ∧
      Precedes before after front := by
  induction ts generalizing waiting frames before with
  | nil =>
    cases frames with
    | nil =>
      have hrelease := (Except.ok.inj h).symm.trans (List.append_nil _).symm
      obtain ⟨before', -, hnil⟩ := append_eq_release_append hrelease
      simp at hnil
    | cons => cases h
  | cons t ts ih =>
    obtain ⟨b | o | _ | _, start', stop'⟩ := t
    · obtain ⟨terms, hterms, hsplit⟩ := Except.map_eq_ok_iff.1 h
      rcases List.cons_eq_append_iff.1 hsplit with ⟨rfl, heq⟩ | ⟨before', rfl, rfl⟩
      · obtain ⟨heq, -⟩ := List.cons.inj heq
        cases heq
        exact ⟨[], ts, rfl, .openings (by simp) rfl⟩
      · obtain ⟨front, rest, rfl, hfront⟩ := ih hterms
        exact ⟨_ :: front, rest, rfl, hfront.cons_of_endsOperand rfl _⟩
    · obtain ⟨terms, hterms, hsplit⟩ := Except.map_eq_ok_iff.1 h
      obtain ⟨before', rfl, rfl⟩ := append_eq_release_append hsplit.symm
      obtain ⟨front, rest, rfl, hfront⟩ := ih hterms
      refine ⟨_ :: front, rest, rfl, hfront.cons ?_⟩
      rintro - rfl
      -- the operator waits, and nothing comes out before the operand
      have hmem := mem_of_arrange hterms (.inl (.head _))
      exact .operator (.head _) ((List.mem_cons.1 hmem).resolve_left nofun)
    · rw [arrange] at h
      split at h
      · cases h
      · obtain ⟨front, rest, rfl, hfront⟩ := ih h
        refine ⟨_ :: front, rest, rfl, hfront.cons ?_⟩
        intro hopenings hbefore
        exact .openings (List.forall_mem_cons.2 ⟨rfl, hopenings⟩) hbefore
    · cases frames with
      | nil => cases h
      | cons innermost frames =>
        obtain ⟨terms, hterms, hsplit⟩ := Except.map_eq_ok_iff.1 h
        obtain ⟨before', rfl, rfl⟩ := append_eq_release_append hsplit.symm
        obtain ⟨front, rest, rfl, hfront⟩ := ih hterms
        exact ⟨_ :: front, rest, rfl, hfront.cons_of_endsOperand rfl _⟩

end Postfix

/-! ### The operand that nothing joins -/

/-- At an offset an operand begins directly behind the end of another one. -/
def Lexeme.Unjoined (ls : List Lexeme) (p : Nat) : Prop :=
  ∃ front left right after, ls = front ++ left :: right :: after ∧ left.item.endsOperand = true ∧
    right.item.beginsOperand = true ∧ right.start = p

/-- Each term is one of the tokens. -/
theorem Postfix.mem_of_ofTokens {limit : Nat} {ts : List (Spanned (Token α))}
    {terms : List (Spanned (Term α))} (h : ofTokens limit ts = .ok terms) {t : Spanned (Term α)}
    (ht : t ∈ terms) : t.map Term.toToken ∈ ts := by
  obtain ⟨order, horder⟩ := exists_reorders_of_ofTokens h
  have hmem : t.map Term.toToken ∈ order.map (·.1) := by
    rw [← horder.terms_eq]
    exact List.mem_map_of_mem ht
  obtain ⟨u, hu, heq⟩ := List.mem_map.1 hmem
  have hu := List.mem_of_mem_filter (horder.perm.subset hu)
  rw [← heq]
  exact List.fst_mem_of_mem_zipIdx hu

namespace Formula

variable {f : Formula} {ls front after : List Lexeme} {left right m : Lexeme} {z : ComplexFloat}

/-- Only a number can begin directly behind the end of an operand. -/
theorem exists_number_of_unjoined (h : f.lexemes = .ok ls)
    (hsplit : ls = front ++ left :: right :: after) (hleft : left.item.endsOperand = true)
    (hright : right.item.beginsOperand = true) : ∃ z, right.item = .operand (.number z) := by
  have hchain := isChain_lexemes h
  rw [hsplit, List.isChain_append_cons_cons] at hchain
  have hjuxtaposed := hchain.2.1
  rw [Lexeme.juxtaposed, hleft, Bool.true_and] at hjuxtaposed
  rcases Token.number_or_beginsFactor hright with hnumber | hfactor
  · exact hnumber
  · rw [hfactor] at hjuxtaposed
    cases hjuxtaposed

theorem exists_cover_of_lexemes (h : f.lexemes = .ok ls) :
    ∃ written, Lexeme.Cover f.text written ls := by
  obtain ⟨written, hscans, rfl⟩ := lexemes_eq_ok_iff.1 h
  exact ⟨written, hscans.tiles.cover⟩

/-- Nothing but a `*` is read from nothing. -/
theorem start_lt_stop_of_mem_lexemes (h : f.lexemes = .ok ls) (hm : m ∈ ls)
    (hitem : m.item ≠ .operator .mul) : m.start < m.stop := by
  obtain ⟨_, hcover⟩ := exists_cover_of_lexemes h
  refine Nat.lt_of_le_of_ne (hcover.bounds m hm).1 fun hempty => ?_
  obtain ⟨before, after, hls⟩ := List.append_of_mem hm
  obtain ⟨_, _, _, _, -, -, -, hm⟩ := hcover.empty before m after hls hempty
  exact hitem (by rw [hm])

section Number

variable (h : f.lexemes = .ok ls) (hsplit : ls = front ++ left :: right :: after)
  (hleft : left.item.endsOperand = true) (hright : right.item = .operand (.number z)) (hm : m ∈ ls)
  (hstart : m.start = right.start)

include h hsplit hleft hright hm hstart

/-- No other characters are read where a number stands directly behind the end of an operand. -/
theorem eq_number_of_start_lt_stop (hfull : m.start < m.stop) : m = right := by
  have hrightmem : right ∈ ls := by simp [hsplit]
  have hrightfull := start_lt_stop_of_mem_lexemes h hrightmem (by simp [hright])
  obtain ⟨_, hcover⟩ := exists_cover_of_lexemes h
  obtain ⟨⟨c, hat, hblank⟩, -⟩ := hcover.ends right hrightmem hrightfull
  rcases hcover.covered right.start c hat hblank with ⟨l, hl⟩ | ⟨rfl, -⟩
  · have hsingle := hl right.start (Nat.le_refl _) (Nat.lt_add_of_pos_right c.utf8Size_pos)
    have hmem {u : Lexeme} (hu : u ∈ ls) (hustart : u.start = right.start)
        (hufull : u.start < u.stop) : u = l := by
      rw [← List.mem_singleton, ← hsingle]
      exact List.mem_filter.2 ⟨hu, Spanned.covers_iff.2 (by omega)⟩
    rw [hmem hm hstart hfull, hmem hrightmem rfl hrightfull]
  · -- behind the end of an operand a `-` is not read as part of a number
    have hsplit' : ls = (front ++ [left]) ++ right :: after := by simp [hsplit]
    have hreads := readsMinus_of_lexemes h hsplit' hat
    rw [List.getLast?_concat] at hreads
    cases hreads with
    | operator hitem | times hitem =>
      rw [hright] at hitem
      cases hitem
    | number _ _ hawaited =>
      rw [Token.endsOperand_eq_false_iff.2 (hawaited left rfl)] at hleft
      cases hleft

/-- Nothing else starts where a number stands directly behind the end of an operand, since a `*`
that is not written stands before a factor. -/
theorem eq_number_of_start_eq : m = right := by
  obtain ⟨_, hcover⟩ := exists_cover_of_lexemes h
  by_cases hempty : m.start = m.stop
  · obtain ⟨before, behind, hls⟩ := List.append_of_mem hm
    obtain ⟨_, _, factor, behind, -, rfl, hjuxtaposed, hm'⟩ :=
      hcover.empty before m behind hls hempty
    have hbegins := (Bool.and_eq_true_iff.1 hjuxtaposed).2
    have hmem : factor ∈ ls := by simp [hls]
    have hfull := start_lt_stop_of_mem_lexemes h hmem fun hitem => by
      rw [hitem] at hbegins
      cases hbegins
    have hfactor : factor.start = right.start := by rw [← hstart, hm']
    rw [eq_number_of_start_lt_stop h hsplit hleft hright hmem hfactor hfull, hright] at hbegins
    cases hbegins
  · have hfull := Nat.lt_of_le_of_ne (hcover.bounds m hm).1 hempty
    exact eq_number_of_start_lt_stop h hsplit hleft hright hm hstart hfull

end Number

/-- Where more than one operand is left over, a number stands directly behind the end of another
one. -/
theorem numberBehindOperand_of_surplus {terms : List (Spanned (Term Atom))}
    (h : f.lexemes = .ok ls) (hterms : Postfix.ofTokens f.depthLimit ls = .ok terms)
    (hmany : 1 < Tree.surplus terms) : Token.NumberBehindOperand (ls.map (·.item)) := by
  by_contra hnumber
  have hparted := Token.parted_of_isChain (isChain_lexemes h) hnumber fun _ _ _ => rfl
  have hle := (Token.surplus_of_parted hparted).1
  have hsurplus := Postfix.surplus_of_order? (Postfix.order?_of_ofTokens hterms)
  rw [List.map_map] at hsurplus
  have hsame : Tree.surplus terms = Token.surplus (ls.map (·.item)) := by
    simpa [Tree.surplus, Function.comp_def] using hsurplus
  simp only [Bool.toNat_true] at hle
  omega

/-- An operand too many has the position of the last term behind which two operands are left over.
Some number then stands directly behind the end of an operand. Only if the term is a number can that
number be the one that stands at the position. It is the one if the term is an operand and whatever
comes out behind it stands behind it. -/
theorem unjoined_of_build {p : Nat} (h : f.build = .error ⟨.extraOperand, .offset p⟩) :
    ∃ ls before t after, f.lexemes = .ok ls ∧ f.terms = .ok (before ++ t :: after) ∧ t.start = p ∧
      Tree.surplus (before ++ [t]) = 2 ∧
      (∀ more, more <+: after → more ≠ [] → 2 < Tree.surplus (before ++ t :: more)) ∧
      Token.NumberBehindOperand (ls.map (·.item)) ∧
      (Lexeme.Unjoined ls p → ∃ z, t.item = .operand (.number z)) ∧
      ((∃ a, t.item = .operand a) → (∀ u ∈ after, p < u.start) → Lexeme.Unjoined ls p) := by
  obtain ⟨ls, terms, hls, hterms, hfault⟩ := termFault_of_build h
  cases hfault with
  | crowded hfed hmany hlast =>
    have hnumber := numberBehindOperand_of_surplus hls hterms hmany
    obtain ⟨before, item, stop, after, rfl, htwo, hafter⟩ := hlast
    have hok : f.terms = .ok (before ++ ⟨item, p, stop⟩ :: after) :=
      Except.bind_eq_ok_iff.2 ⟨ls, hls, hterms⟩
    refine ⟨ls, before, ⟨item, p, stop⟩, after, hls, hok, rfl, htwo, hafter, hnumber, ?_, ?_⟩
    · rintro ⟨front, left, right, behind, hsplit, hleft, hright, hstart⟩
      obtain ⟨z, hz⟩ := exists_number_of_unjoined hls hsplit hleft hright
      have hmem := Postfix.mem_of_ofTokens hterms (List.mem_append_right _ (.head _))
      have heq := eq_number_of_start_eq hls hsplit hleft hz hmem hstart.symm
      refine ⟨z, ?_⟩
      rw [← heq] at hz
      cases item with
      | operand a => exact congrArg Term.operand (Token.operand.inj hz)
      | operator o => cases hz
    · rintro ⟨a, rfl⟩ hbehind
      obtain ⟨front, rest, rfl, hfront⟩ := Postfix.exists_precedes_of_arrange hterms
      obtain ⟨_, hcover⟩ := exists_cover_of_lexemes hls
      cases hfront with
      | openings _ hbefore =>
        rw [hbefore, List.nil_append] at htwo
        cases htwo
      | operator hmem hwaits =>
        have hle := (List.pairwise_append.1 hcover.ordered).2.2 _ hmem _ (.head _)
        have hlt := hbehind _ hwaits
        exact absurd hlt (Nat.not_lt.2 hle)
      | @operand us vs t ht hvs =>
        cases vs with
        | nil => exact ⟨us, t, ⟨.operand a, p, stop⟩, rest, by simp, ht, rfl, rfl⟩
        | cons v vs =>
          -- a `*` would have been read in front of the parenthesis
          have hchain := isChain_lexemes hls
          rw [List.append_assoc, List.cons_append, List.cons_append,
            List.isChain_append_cons_cons] at hchain
          have hjuxtaposed := hchain.2.1
          simp [Lexeme.juxtaposed, ht, hvs v (.head _), Lexeme.beginsFactor] at hjuxtaposed

/-- In `xi` the position is that of the `i`. -/
theorem unjoined_of_build_unit :
    (Formula.mk "xi" 0).build = .error ⟨.extraOperand, .offset 1⟩ ∧
    ∃ ls, (Formula.mk "xi" 0).lexemes = .ok ls ∧ Lexeme.Unjoined ls 1 := by
  have hlexemes : (Formula.mk "xi" 0).lexemes =
      .ok [⟨.operand .free, 0, 1⟩, ⟨.operand (.number .imaginaryUnit), 1, 2⟩] := by
    decide +kernel
  have hterms : (Formula.mk "xi" 0).terms =
      .ok [⟨.operand .free, 0, 1⟩, ⟨.operand (.number .imaginaryUnit), 1, 2⟩] := by
    rw [terms, hlexemes]
    rfl
  have hbuild : (Formula.mk "xi" 0).build = .error ⟨.extraOperand, .offset 1⟩ := by
    rw [build, arena, hterms]
    rfl
  obtain ⟨ls, before, t, after, hls, hterms', hstart, htwo, -, -, -, hunjoined⟩ :=
    unjoined_of_build hbuild
  have hsplit := Except.ok.inj (hterms.symm.trans hterms')
  refine ⟨hbuild, ls, hls, ?_⟩
  rcases before with _ | ⟨u, _ | ⟨v, before⟩⟩
  · cases hsplit
    cases hstart
  · cases hsplit
    exact hunjoined ⟨_, rfl⟩ (by simp)
  · simp at hsplit

/-- The position need not be that of the number: in `x2+3` it is that of the `+`, which joins the
numbers on its two sides and leaves the variable over. -/
theorem not_unjoined_of_build : ¬ ∀ (f : Formula) (p : Nat),
    f.build = .error ⟨.extraOperand, .offset p⟩ →
      ∃ ls, f.lexemes = .ok ls ∧ Lexeme.Unjoined ls p := by
  intro hall
  have hscans : Lexeme.Scans 256 (Lexeme.innerReader 256 256) none
      [⟨'x', 0, 1⟩, ⟨'2', 1, 2⟩, ⟨'+', 2, 3⟩, ⟨'3', 3, 4⟩] _ :=
    .cons rfl (.cons rfl (.cons rfl (.cons rfl (.nil _))))
  obtain ⟨y, z, hlexemes⟩ : ∃ y z : ComplexFloat, (Formula.mk "x2+3" 256).lexemes =
      .ok [⟨.operand .free, 0, 1⟩, ⟨.operand (.number y), 1, 2⟩, ⟨.operator .add, 2, 3⟩,
        ⟨.operand (.number z), 3, 4⟩] :=
    ⟨_, _, lexemes_eq_ok_iff.2 ⟨_, hscans, rfl⟩⟩
  have hbuild : (Formula.mk "x2+3" 256).build = .error ⟨.extraOperand, .offset 2⟩ := by
    rw [build, arena, terms, hlexemes]
    rfl
  obtain ⟨ls, hls, front, left, right, after, hsplit, hleft, hright, hstart⟩ := hall _ _ hbuild
  obtain rfl := Except.ok.inj (hls.symm.trans hlexemes)
  -- the only lexeme at the position is the operator
  have hmem : right ∈ front ++ left :: right :: after := by simp
  rw [← hsplit] at hmem
  simp only [List.mem_cons, List.not_mem_nil, or_false] at hmem
  rcases hmem with rfl | rfl | rfl | rfl
  · cases hstart
  · cases hstart
  · cases hright
  · cases hstart

end Formula

end ComplexFormula
