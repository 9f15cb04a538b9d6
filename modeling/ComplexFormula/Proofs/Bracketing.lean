import ComplexFormula.Postfix
import ComplexFormula.Proofs.Success
import Mathlib.Algebra.BigOperators.Group.List.Basic
import Mathlib.Algebra.Ring.Int.Defs
import Mathlib.Data.List.Induction

/-!
What the converter refuses and what it keeps. Whether it refuses a run of tokens shows in the
parentheses alone: each `(` opens one more and each `)` closes one, and the first token that closes
what is not open or opens what is too deep is at fault, or else the last `(` that is never closed.
Whatever is not refused only has its operators moved, each of them to behind operands that follow it
in the text.
-/

namespace ComplexFormula

variable {α : Type}

/-- How many more parentheses are open behind a token than before it. -/
def Token.rise : Token α → Int
  | opening => 1
  | closing => -1
  | _ => 0

namespace Postfix

/-- How many more parentheses are opened by the tokens than are closed. -/
def openCount (tokens : List (Spanned (Token α))) : Int :=
  (tokens.map (·.item.rise)).sum

/-- Nowhere among the tokens is a parenthesis closed that is not open, or are more open than the
limit allows. -/
def Fits (limit : Nat) (tokens : List (Spanned (Token α))) : Prop :=
  ∀ front, front <+: tokens → 0 ≤ openCount front ∧ openCount front ≤ limit

/-- The tokens close nothing but what they open. -/
def Contained (tokens : List (Spanned (Token α))) : Prop :=
  ∀ front, front <+: tokens → 0 ≤ openCount front

/-- Why tokens are refused. -/
inductive BracketFault (limit : Nat) (tokens : List (Spanned (Token α))) : ParseError → Prop
  /-- The first fault is a `)` where nothing is open. -/
  | unopened {before after : List (Spanned (Token α))} {start stop : Nat}
      (hsplit : tokens = before ++ ⟨.closing, start, stop⟩ :: after) (hbefore : Fits limit before)
      (hnone : openCount before = 0) :
      BracketFault limit tokens ⟨.unbalancedParentheses, .offset start⟩
  /-- The first fault is a `(` where as many are open as the limit allows. -/
  | tooDeep {before after : List (Spanned (Token α))} {start stop : Nat}
      (hsplit : tokens = before ++ ⟨.opening, start, stop⟩ :: after) (hbefore : Fits limit before)
      (hfull : openCount before = limit) :
      BracketFault limit tokens ⟨.nestingTooDeep limit, .offset start⟩
  /-- There is no such fault, but a `(` is never closed and all behind it are. -/
  | unclosed {before after : List (Spanned (Token α))} {start stop : Nat}
      (hsplit : tokens = before ++ ⟨.opening, start, stop⟩ :: after) (hfits : Fits limit tokens)
      (hopen : Contained after)
      (hlast : ∀ middle start' stop' after', after = middle ++ ⟨.opening, start', stop'⟩ :: after' →
        ¬ Contained after') :
      BracketFault limit tokens ⟨.unbalancedParentheses, .offset start⟩

section openCount

variable {limit : Nat} {us vs : List (Spanned (Token α))} {t : Spanned (Token α)}

@[simp] theorem openCount_nil : openCount ([] : List (Spanned (Token α))) = 0 := rfl

@[simp] theorem openCount_append (us vs : List (Spanned (Token α))) :
    openCount (us ++ vs) = openCount us + openCount vs := by
  simp [openCount]

@[simp] theorem openCount_cons (t : Spanned (Token α)) (us : List (Spanned (Token α))) :
    openCount (t :: us) = t.item.rise + openCount us := by
  simp [openCount]

theorem fits_nil : Fits limit ([] : List (Spanned (Token α))) := by
  intro front hfront
  rw [List.prefix_nil.1 hfront]
  simp

/-- With one more token behind them, tokens fit if they do without it and it does. -/
theorem fits_concat_iff : Fits limit (us ++ [t]) ↔
    Fits limit us ∧ 0 ≤ openCount (us ++ [t]) ∧ openCount (us ++ [t]) ≤ limit := by
  constructor
  · intro h
    exact ⟨fun front hfront => h front (hfront.trans (List.prefix_append _ _)),
      h _ List.prefix_rfl⟩
  · rintro ⟨hus, hall⟩ front hfront
    rcases List.prefix_concat_iff.1 hfront with rfl | hfront
    · exact hall
    · exact hus front hfront

theorem Fits.contained (h : Fits limit us) : Contained us :=
  fun front hfront => (h front hfront).1

theorem Contained.nonneg (h : Contained us) : 0 ≤ openCount us :=
  h us List.prefix_rfl

theorem contained_nil : Contained ([] : List (Spanned (Token α))) := by
  have h : Fits 0 ([] : List (Spanned (Token α))) := fits_nil
  exact h.contained

theorem Contained.append (hus : Contained us) (hvs : Contained vs) : Contained (us ++ vs) := by
  rintro front ⟨back, hsplit⟩
  rcases List.append_eq_append_iff.1 hsplit with ⟨middle, rfl, -⟩ | ⟨middle, rfl, rfl⟩
  · exact hus front (List.prefix_append _ _)
  · have := hus.nonneg
    have := hvs middle (List.prefix_append _ _)
    rw [openCount_append]
    omega

theorem Contained.concat (hus : Contained us) (ht : 0 ≤ openCount (us ++ [t])) :
    Contained (us ++ [t]) := by
  intro front hfront
  rcases List.prefix_concat_iff.1 hfront with rfl | hfront
  · exact ht
  · exact hus front hfront

end openCount

/-! ### The parentheses that are open -/

/-- The tokens close what they open and nothing else. -/
structure Closed (tokens : List (Spanned (Token α))) : Prop where
  contained : Contained tokens
  openCount_eq : openCount tokens = 0

/-- Where the parentheses start that the tokens leave open, the last one first. -/
inductive LeavesOpen : List Nat → List (Spanned (Token α)) → Prop
  | none {tokens : List (Spanned (Token α))} (h : Closed tokens) : LeavesOpen [] tokens
  | opening {starts : List Nat} {before after : List (Spanned (Token α))} {start stop : Nat}
      (hbefore : LeavesOpen starts before) (hafter : Closed after) :
      LeavesOpen (start :: starts) (before ++ ⟨.opening, start, stop⟩ :: after)

section LeavesOpen

variable {limit : Nat} {us vs : List (Spanned (Token α))} {t : Spanned (Token α)}
  {starts : List Nat}

theorem closed_nil : Closed ([] : List (Spanned (Token α))) :=
  ⟨contained_nil, rfl⟩

theorem Closed.concat (h : Closed us) (ht : t.item.rise = 0) : Closed (us ++ [t]) := by
  have hcount : openCount (us ++ [t]) = 0 := by simp [h.openCount_eq, ht]
  exact ⟨h.contained.concat (Int.le_of_eq hcount.symm), hcount⟩

/-- A group behind closed tokens. -/
theorem Closed.append_group (hus : Closed us) (hvs : Closed vs) (start stop start' stop' : Nat) :
    Closed (us ++ ⟨.opening, start, stop⟩ :: (vs ++ [⟨.closing, start', stop'⟩])) := by
  have hcount : openCount
      (us ++ ⟨.opening, start, stop⟩ :: vs ++ [⟨.closing, start', stop'⟩]) = 0 := by
    simp [hus.openCount_eq, hvs.openCount_eq, Token.rise]
  have hopening : Contained [(⟨.opening, start, stop⟩ : Spanned (Token α))] :=
    contained_nil.concat (by simp [Token.rise])
  have hcontained := hus.contained.append (hopening.append hvs.contained)
  rw [← List.cons_append, ← List.append_assoc]
  exact ⟨hcontained.concat (Int.le_of_eq hcount.symm), hcount⟩

theorem LeavesOpen.openCount_eq (h : LeavesOpen starts us) : openCount us = starts.length := by
  induction h with
  | none h => exact h.openCount_eq
  | opening _ hafter ih =>
    simp only [openCount_append, openCount_cons, ih, hafter.openCount_eq, Token.rise,
      List.length_cons]
    omega

theorem LeavesOpen.concat (h : LeavesOpen starts us) (ht : t.item.rise = 0) :
    LeavesOpen starts (us ++ [t]) := by
  cases h with
  | none h => exact .none (h.concat ht)
  | opening hbefore hafter =>
    rw [List.append_assoc, List.cons_append]
    exact .opening hbefore (hafter.concat ht)

/-- A `)` closes the last parenthesis that is open. -/
theorem LeavesOpen.close {last start stop : Nat} (h : LeavesOpen (last :: starts) us) :
    LeavesOpen starts (us ++ [⟨.closing, start, stop⟩]) := by
  cases h with
  | opening hbefore hafter =>
    cases hbefore with
    | none hbefore =>
      rw [List.append_assoc, List.cons_append]
      exact .none (hbefore.append_group hafter _ _ _ _)
    | opening hbefore hmiddle =>
      rw [List.append_assoc, List.append_assoc, List.cons_append, List.cons_append]
      exact .opening hbefore (hmiddle.append_group hafter _ _ _ _)

/-- A parenthesis that is never closed, while all behind it are, is the last one left open. -/
theorem LeavesOpen.head?_eq {start stop : Nat}
    (h : LeavesOpen starts (us ++ ⟨.opening, start, stop⟩ :: vs)) (hus : Contained us)
    (hvs : Contained vs)
    (hlast : ∀ middle start' stop' after', vs = middle ++ ⟨.opening, start', stop'⟩ :: after' →
      ¬ Contained after') : starts.head? = some start := by
  generalize htokens : us ++ ⟨.opening, start, stop⟩ :: vs = tokens at h
  cases h with
  | none h =>
    have hcount := h.openCount_eq
    have := hus.nonneg
    have := hvs.nonneg
    rw [← htokens] at hcount
    simp only [openCount_append, openCount_cons, Token.rise] at hcount
    omega
  | @opening starts before after start' stop' hbefore hafter =>
    rcases List.append_eq_append_iff.1 htokens with ⟨middle, rfl, hsplit⟩ | ⟨middle, rfl, hsplit⟩
    · cases middle with
      | nil =>
        cases hsplit
        rfl
      | cons t middle =>
        -- the one that is left open stands behind the other
        obtain ⟨rfl, rfl⟩ := List.cons.inj (hsplit.trans List.cons_append)
        exact absurd hafter.contained (hlast _ _ _ _ rfl)
    · cases middle with
      | nil =>
        cases hsplit
        rfl
      | cons t middle =>
        -- it stands before the other, which is then closed behind it
        obtain ⟨rfl, rfl⟩ := List.cons.inj (hsplit.trans List.cons_append)
        have hcount := hafter.openCount_eq
        have := hafter.contained middle (List.prefix_append _ _)
        have := hvs.nonneg
        simp only [openCount_append, openCount_cons, Token.rise] at hcount
        omega

end LeavesOpen

/-! ### What is refused -/

section ofTokens

variable {limit : Nat} {tokens us : List (Spanned (Token α))} {e : ParseError}

/-- Tokens that fit are gone through without a fault, and the frames are then those of the
parentheses that they leave open. -/
theorem exists_ofTokens_append (h : Fits limit us) : ∃ (settled : List (Spanned (Term α)))
    (waiting : List (Spanned Operator)) (frames : List Frame),
    LeavesOpen (frames.map (·.start)) us ∧ ∀ rest,
      ofTokens limit (us ++ rest) = (settled ++ ·) <$> arrange limit waiting frames rest := by
  induction us using List.reverseRecOn with
  | nil =>
    refine ⟨[], [], [], .none closed_nil, fun rest => ?_⟩
    simp [ofTokens]
  | append_singleton us t ih =>
    obtain ⟨hus, hnonneg, hle⟩ := fits_concat_iff.1 h
    obtain ⟨settled, waiting, frames, hopen, hrun⟩ := ih hus
    have hcount := hopen.openCount_eq
    simp only [List.length_map] at hcount
    simp only [openCount_append, openCount_cons, openCount_nil, hcount] at hnonneg hle
    simp only [List.append_assoc, List.singleton_append, hrun]
    obtain ⟨item, start, stop⟩ := t
    cases item with
    | operand a =>
      refine ⟨settled ++ [⟨.operand a, start, stop⟩], waiting, frames, hopen.concat rfl, ?_⟩
      intro rest
      rw [arrange, Functor.map_map]
      simp
    | operator o =>
      refine ⟨settled ++ release (waiting.takeWhile fun w => w.item.bindsBefore o),
        ⟨o, start, stop⟩ :: waiting.dropWhile fun w => w.item.bindsBefore o, frames,
        hopen.concat rfl, ?_⟩
      intro rest
      rw [arrange, Functor.map_map]
      simp
    | opening =>
      simp only [Token.rise] at hle
      refine ⟨settled, [], ⟨start, waiting⟩ :: frames, .opening hopen closed_nil, ?_⟩
      intro rest
      rw [arrange, if_neg (by omega)]
    | closing =>
      simp only [Token.rise] at hnonneg
      cases frames with
      | nil => simp at hnonneg
      | cons innermost frames =>
        refine ⟨settled ++ release waiting, innermost.outer, frames, hopen.close, ?_⟩
        intro rest
        rw [arrange, Functor.map_map]
        simp

/-- Tokens that do not fit have a first token with which they do not. -/
theorem exists_of_not_fits (h : ¬ Fits limit tokens) : ∃ before t after,
    tokens = before ++ t :: after ∧ Fits limit before ∧ ¬ Fits limit (before ++ [t]) := by
  induction tokens using List.reverseRecOn with
  | nil => exact absurd fits_nil h
  | append_singleton us t ih =>
    by_cases hus : Fits limit us
    · exact ⟨us, t, [], rfl, hus, h⟩
    · obtain ⟨before, s, after, rfl, hbefore, hs⟩ := ih hus
      exact ⟨before, s, after ++ [t], by simp, hbefore, hs⟩

/-- Tokens either have a fault or close each parenthesis that they open. -/
theorem exists_bracketFault_or (limit : Nat) (tokens : List (Spanned (Token α))) :
    (∃ e, BracketFault limit tokens e) ∨ Fits limit tokens ∧ openCount tokens = 0 := by
  by_cases h : Fits limit tokens
  · obtain ⟨-, -, frames, hopen, -⟩ := exists_ofTokens_append h
    generalize frames.map (·.start) = starts at hopen
    cases hopen with
    | none hclosed => exact .inr ⟨h, hclosed.openCount_eq⟩
    | opening hbefore hafter =>
      refine .inl ⟨_, .unclosed rfl h hafter.contained ?_⟩
      rintro middle start' stop' after' rfl hafter'
      have hcount := hafter.openCount_eq
      have := hafter.contained middle (List.prefix_append _ _)
      have := hafter'.nonneg
      simp only [openCount_append, openCount_cons, Token.rise] at hcount
      omega
  · obtain ⟨before, ⟨item, start, stop⟩, after, rfl, hbefore, hnot⟩ := exists_of_not_fits h
    have hcount := hbefore before List.prefix_rfl
    rw [fits_concat_iff] at hnot
    simp only [hbefore, true_and, openCount_append, openCount_cons, openCount_nil] at hnot
    cases item with
    | operand a => exact absurd (by simpa [Token.rise] using hcount) hnot
    | operator o => exact absurd (by simpa [Token.rise] using hcount) hnot
    | opening =>
      simp only [Token.rise] at hnot
      exact .inl ⟨_, .tooDeep rfl hbefore (by omega)⟩
    | closing =>
      simp only [Token.rise] at hnot
      exact .inl ⟨_, .unopened rfl hbefore (by omega)⟩

/-- A fault is what the tokens are refused for. -/
theorem BracketFault.ofTokens_eq (h : BracketFault limit tokens e) :
    ofTokens limit tokens = .error e := by
  cases h with
  | unopened hsplit hbefore hnone =>
    obtain ⟨settled, waiting, frames, hopen, hrun⟩ := exists_ofTokens_append hbefore
    have hcount := hopen.openCount_eq
    rw [List.length_map, hnone] at hcount
    obtain rfl : frames = [] := List.length_eq_zero_iff.1 (by omega)
    rw [hsplit, hrun, arrange]
    rfl
  | tooDeep hsplit hbefore hfull =>
    obtain ⟨settled, waiting, frames, hopen, hrun⟩ := exists_ofTokens_append hbefore
    have hcount := hopen.openCount_eq
    rw [List.length_map, hfull] at hcount
    rw [hsplit, hrun, arrange, if_pos (by omega)]
    rfl
  | unclosed hsplit hfits hopen hlast =>
    obtain ⟨settled, waiting, frames, hleaves, hrun⟩ := exists_ofTokens_append hfits
    rw [hsplit] at hleaves hfits
    have hbefore : Contained _ := fun front hfront =>
      (hfits front (hfront.trans (List.prefix_append _ _))).1
    have hhead := hleaves.head?_eq hbefore hopen hlast
    have hend := hrun []
    rw [List.append_nil] at hend
    rw [hend]
    cases frames with
    | nil => cases hhead
    | cons innermost frames =>
      cases hhead
      rw [arrange]
      rfl

/-- Tokens that fit and close each parenthesis that they open are not refused. -/
theorem exists_ofTokens_eq_ok (hfits : Fits limit tokens) (hcount : openCount tokens = 0) :
    ∃ terms, ofTokens limit tokens = .ok terms := by
  obtain ⟨settled, waiting, frames, hopen, hrun⟩ := exists_ofTokens_append hfits
  have hlength := hopen.openCount_eq
  rw [List.length_map, hcount] at hlength
  obtain rfl : frames = [] := List.length_eq_zero_iff.1 (by omega)
  have hend := hrun []
  rw [List.append_nil] at hend
  rw [hend, arrange]
  exact ⟨_, rfl⟩

/-- The converter refuses exactly the tokens that have a fault, and for that fault. -/
theorem ofTokens_eq_error_iff : ofTokens limit tokens = .error e ↔ BracketFault limit tokens e := by
  refine ⟨fun h => ?_, BracketFault.ofTokens_eq⟩
  rcases exists_bracketFault_or limit tokens with ⟨e', hfault⟩ | ⟨hfits, hcount⟩
  · obtain rfl : e' = e := Except.error.inj (hfault.ofTokens_eq.symm.trans h)
    exact hfault
  · obtain ⟨terms, hok⟩ := exists_ofTokens_eq_ok hfits hcount
    cases hok.symm.trans h

/-- It accepts exactly those that fit and close each parenthesis that they open. -/
theorem exists_ofTokens_eq_ok_iff :
    (∃ terms, ofTokens limit tokens = .ok terms) ↔ Fits limit tokens ∧ openCount tokens = 0 := by
  refine ⟨fun ⟨terms, h⟩ => ?_, fun ⟨hfits, hcount⟩ => exists_ofTokens_eq_ok hfits hcount⟩
  rcases exists_bracketFault_or limit tokens with ⟨e, hfault⟩ | hclosed
  · cases hfault.ofTokens_eq.symm.trans h
  · exact hclosed

end ofTokens

/-! ### What is kept -/

/-- How numbered tokens come out as terms: every token but the parentheses, none of them changed. -/
structure Reorders (numbered : List (Spanned (Token α) × Nat)) (terms : List (Spanned (Term α)))
    (order : List (Spanned (Token α) × Nat)) : Prop where
  terms_eq : terms.map (Spanned.map Term.toToken) = order.map (·.1)
  perm : order.Perm (numbered.filter (·.1.item.term?.isSome))
  /-- The operands keep their order. -/
  operands_eq : order.filter (·.1.item.operand?.isSome) =
    numbered.filter (·.1.item.operand?.isSome)
  /-- What comes out before an operand has the smaller number, so that an operator comes out behind
  all the operands that it stood behind. -/
  before_operand : order.Pairwise fun s t => t.1.item.operand?.isSome → s.2 < t.2

/-- A numbered operator as a token. -/
def asToken (w : Spanned Operator × Nat) : Spanned (Token α) × Nat :=
  (w.1.map .operator, w.2)

section Reorders

variable {limit : Nat} {numbered numbered' : List (Spanned (Token α) × Nat)}
  {settled waiting : List (Spanned Operator × Nat)} {terms : List (Spanned (Term α))}
  {order : List (Spanned (Token α) × Nat)} {t : Spanned (Token α) × Nat}

@[simp] theorem filter_term?_asToken (waiting : List (Spanned Operator × Nat)) :
    (waiting.map (asToken (α := α))).filter (·.1.item.term?.isSome) = waiting.map asToken := by
  exact List.filter_eq_self.2 (List.forall_mem_map.2 fun _ _ => rfl)

@[simp] theorem filter_operand?_asToken (waiting : List (Spanned Operator × Nat)) :
    (waiting.map (asToken (α := α))).filter (·.1.item.operand?.isSome) = [] := by
  exact List.filter_eq_nil_iff.2 (List.forall_mem_map.2 fun _ _ => Bool.false_ne_true)

theorem map_toToken_release (waiting : List (Spanned Operator × Nat)) :
    (release (waiting.map (·.1))).map (Spanned.map (Term.toToken (α := α))) =
      (waiting.map asToken).map (·.1) := by
  simp only [release, List.map_map]
  rfl

/-- Operators that wait come out in any order. -/
theorem reorders_asToken (waiting : List (Spanned Operator × Nat)) :
    Reorders (waiting.map (asToken (α := α))) (release (waiting.map (·.1)))
      (waiting.map asToken) where
  terms_eq := map_toToken_release waiting
  perm := by rw [filter_term?_asToken]
  operands_eq := rfl
  before_operand :=
    List.pairwise_map.2 (List.pairwise_of_forall fun _ _ hoperand => nomatch hoperand)

/-- It is no matter where operators and parentheses stand. -/
theorem Reorders.of_perm (h : Reorders numbered terms order)
    (hterms : (numbered.filter (·.1.item.term?.isSome)).Perm
      (numbered'.filter (·.1.item.term?.isSome)))
    (hoperands : numbered.filter (·.1.item.operand?.isSome) =
      numbered'.filter (·.1.item.operand?.isSome)) : Reorders numbered' terms order :=
  ⟨h.terms_eq, h.perm.trans hterms, h.operands_eq.trans hoperands, h.before_operand⟩

/-- An operand that comes out stood among the tokens, and not among the operators that wait. -/
theorem Reorders.mem_of_operand (h : Reorders (waiting.map asToken ++ numbered) terms order)
    (ht : t ∈ order) (hoperand : t.1.item.operand?.isSome) : t ∈ numbered := by
  have hmem : t ∈ order.filter (·.1.item.operand?.isSome) := List.mem_filter.2 ⟨ht, hoperand⟩
  rw [h.operands_eq, List.filter_append, filter_operand?_asToken, List.nil_append] at hmem
  exact List.mem_of_mem_filter hmem

/-- An operand comes out at once. -/
theorem Reorders.operand {a : α} {start stop n : Nat}
    (h : Reorders (waiting.map asToken ++ numbered) terms order)
    (hlt : ∀ t ∈ numbered, n < t.2) :
    Reorders (waiting.map asToken ++ (⟨.operand a, start, stop⟩, n) :: numbered)
      (⟨.operand a, start, stop⟩ :: terms) ((⟨.operand a, start, stop⟩, n) :: order) where
  terms_eq := by
    rw [List.map_cons, List.map_cons, h.terms_eq]
    rfl
  perm := by
    have hperm := h.perm
    rw [List.filter_append, filter_term?_asToken] at hperm ⊢
    rw [List.filter_cons_of_pos rfl]
    exact (hperm.cons _).trans List.perm_middle.symm
  operands_eq := by
    have heq := h.operands_eq
    rw [List.filter_append, filter_operand?_asToken, List.nil_append] at heq ⊢
    rw [List.filter_cons_of_pos rfl, List.filter_cons_of_pos rfl, heq]
  before_operand :=
    List.pairwise_cons.2 ⟨fun t ht hoperand => hlt t (h.mem_of_operand ht hoperand),
      h.before_operand⟩

/-- Operators that wait can come out before whatever stands behind them. -/
theorem Reorders.settle (h : Reorders (waiting.map asToken ++ numbered) terms order)
    (hlt : ∀ w ∈ settled, ∀ t ∈ numbered, w.2 < t.2) :
    Reorders ((settled ++ waiting).map asToken ++ numbered)
      (release (settled.map (·.1)) ++ terms) (settled.map asToken ++ order) where
  terms_eq := by rw [List.map_append, List.map_append, h.terms_eq, map_toToken_release]
  perm := by
    rw [List.map_append, List.append_assoc, List.filter_append, filter_term?_asToken]
    exact h.perm.append_left _
  operands_eq := by
    rw [List.map_append, List.append_assoc, List.filter_append, List.filter_append, h.operands_eq]
  before_operand := by
    refine List.pairwise_append.2 ⟨(reorders_asToken settled).before_operand, h.before_operand, ?_⟩
    intro s hs t ht hoperand
    obtain ⟨w, hw, rfl⟩ := List.mem_map.1 hs
    exact hlt w hw t (h.mem_of_operand ht hoperand)

/-- An operator that waits has its place among those that wait already. -/
theorem Reorders.wait {o : Operator} {start stop n : Nat}
    (h : Reorders ((settled ++ (⟨o, start, stop⟩, n) :: waiting).map asToken ++ numbered)
      terms order) :
    Reorders ((settled ++ waiting).map asToken ++ (⟨.operator o, start, stop⟩, n) :: numbered)
      terms order := by
  refine h.of_perm (List.Perm.filter _ ?_) ?_
  · simp only [List.map_append, List.map_cons, List.append_assoc, List.cons_append]
    exact List.perm_middle.symm.append_left _
  · simp only [List.filter_append, filter_operand?_asToken]
    rw [List.filter_cons_of_neg (by simp [Token.operand?])]

/-- The operators that wait, those of the innermost parenthesis first. -/
def pending (waiting : List (Spanned Operator × Nat))
    (frames : List (Nat × List (Spanned Operator × Nat))) : List (Spanned Operator × Nat) :=
  waiting ++ frames.flatMap (·.2)

/-- A numbered frame without its numbers. -/
def toFrame (frame : Nat × List (Spanned Operator × Nat)) : Frame :=
  ⟨frame.1, frame.2.map (·.1)⟩

/-- The terms that are arranged are the operators that wait and the tokens that follow them. -/
theorem exists_reorders_of_arrange {frames : List (Nat × List (Spanned Operator × Nat))}
    (hnumbered : numbered.Pairwise fun s t => s.2 < t.2)
    (hpending : ∀ w ∈ pending waiting frames, ∀ t ∈ numbered, w.2 < t.2)
    (h : arrange limit (waiting.map (·.1)) (frames.map toFrame) (numbered.map (·.1)) = .ok terms) :
    ∃ order, Reorders ((pending waiting frames).map asToken ++ numbered) terms order := by
  induction numbered generalizing waiting frames terms with
  | nil =>
    cases frames with
    | nil =>
      cases h
      exact ⟨_, by simpa [pending] using reorders_asToken waiting⟩
    | cons => cases h
  | cons t numbered ih =>
    rw [List.pairwise_cons] at hnumbered
    obtain ⟨hfirst, hnumbered⟩ := hnumbered
    have hrest : ∀ w ∈ pending waiting frames, ∀ t ∈ numbered, w.2 < t.2 :=
      fun w hw t ht => hpending w hw t (.tail _ ht)
    obtain ⟨⟨item, start, stop⟩, n⟩ := t
    rw [List.map_cons] at h
    cases item with
    | operand a =>
      rw [arrange, Except.map_eq_ok_iff] at h
      obtain ⟨terms, h, rfl⟩ := h
      obtain ⟨order, horder⟩ := ih hnumbered hrest h
      exact ⟨_, horder.operand hfirst⟩
    | operator o =>
      rw [arrange, Except.map_eq_ok_iff] at h
      obtain ⟨terms, h, rfl⟩ := h
      -- those that bind before it come out, and it waits with the others
      let goesFirst (w : Spanned Operator × Nat) := w.1.item.bindsBefore o
      have hsplit : pending waiting frames =
          waiting.takeWhile goesFirst ++ pending (waiting.dropWhile goesFirst) frames := by
        rw [pending, pending, ← List.append_assoc, List.takeWhile_append_dropWhile]
      rw [List.dropWhile_map] at h
      rw [hsplit] at hrest ⊢
      have hlater : ∀ w ∈ pending ((⟨o, start, stop⟩, n) :: waiting.dropWhile goesFirst) frames,
          ∀ t ∈ numbered, w.2 < t.2 :=
        List.forall_mem_cons.2 ⟨hfirst, fun w hw => hrest w (List.mem_append_right _ hw)⟩
      obtain ⟨order, horder⟩ := ih hnumbered hlater h
      rw [List.takeWhile_map]
      exact ⟨_, (horder.settle fun w hw => hrest w (List.mem_append_left _ hw)).wait⟩
    | opening =>
      rw [arrange] at h
      split at h
      · cases h
      · have hinside : ∀ w ∈ pending [] ((start, waiting) :: frames), ∀ t ∈ numbered,
            w.2 < t.2 := hrest
        obtain ⟨order, horder⟩ := ih hnumbered hinside h
        refine ⟨order, horder.of_perm ?_ ?_⟩
        · simp [pending, Token.term?]
        · simp [pending, Token.operand?]
    | closing =>
      cases frames with
      | nil => cases h
      | cons frame frames =>
        rw [List.map_cons, arrange, Except.map_eq_ok_iff] at h
        obtain ⟨terms, h, rfl⟩ := h
        have hsplit : pending waiting (frame :: frames) = waiting ++ pending frame.2 frames := rfl
        rw [hsplit] at hrest ⊢
        obtain ⟨order, horder⟩ := ih hnumbered (fun w hw => hrest w (List.mem_append_right _ hw)) h
        refine ⟨_, (horder.settle fun w hw => hrest w (List.mem_append_left _ hw)).of_perm ?_ ?_⟩
        · simp [Token.term?]
        · simp [Token.operand?]

/-- Whatever the converter accepts, it only reorders. -/
theorem exists_reorders_of_ofTokens {tokens : List (Spanned (Token α))}
    (h : ofTokens limit tokens = .ok terms) : ∃ order, Reorders tokens.zipIdx terms order := by
  have hnumbered : tokens.zipIdx.Pairwise fun s t => s.2 < t.2 := by
    rw [← List.pairwise_map, List.zipIdx_map_snd]
    exact List.pairwise_lt_range'
  have hpending : ∀ w ∈ pending [] [], ∀ t ∈ tokens.zipIdx, w.2 < t.2 := by simp [pending]
  rw [ofTokens, ← List.zipIdx_map_fst 0 tokens] at h
  exact exists_reorders_of_arrange hnumbered hpending h

end Reorders

/-- The converter refuses exactly the tokens in which a parenthesis is closed that is not open,
nests too deep or stays open, for the first fault of the former two kinds or else for the last
parenthesis that stays open. Any other tokens it accepts, and the terms are then those tokens,
without the parentheses, in an order that leaves the operands as they stand and puts no operator
before an operand that it stands behind. -/
theorem ofTokens_refuses_or_reorders (limit : Nat) (tokens : List (Spanned (Token α))) :
    (∀ e, ofTokens limit tokens = .error e ↔ BracketFault limit tokens e) ∧
    ((∃ terms, ofTokens limit tokens = .ok terms) ↔ Fits limit tokens ∧ openCount tokens = 0) ∧
    ∀ terms, ofTokens limit tokens = .ok terms → ∃ order, Reorders tokens.zipIdx terms order :=
  ⟨fun _ => ofTokens_eq_error_iff, exists_ofTokens_eq_ok_iff, fun _ => exists_reorders_of_ofTokens⟩

end Postfix

end ComplexFormula
