import ComplexFormula.Proofs.Acceptance
import ComplexFormula.Proofs.Refusal

/-!
Two runs under different limits. All that a limit decides is whether a run is cut off: either it is,
or it ends as it does under any higher limit. With enough room no run is cut off.
-/

namespace ComplexFormula

variable {α β : Type}

/-- The run was not cut off at a limit. -/
def Settled (u : Except ParseError α) : Prop :=
  ∀ limit position, u ≠ .error ⟨.nestingTooDeep limit, position⟩

/-- The first run was cut off at its limit, or it ended like the second one. -/
inductive Limited (limit : Nat) : Except ParseError α → Except ParseError α → Prop
  | cut (p : Nat) (v : Except ParseError α) :
      Limited limit (.error ⟨.nestingTooDeep limit, .offset p⟩) v
  | whole (v : Except ParseError α) : Limited limit v v

namespace Limited

variable {limit : Nat} {u v : Except ParseError α}

theorem bind (h : Limited limit u v) {f g : α → Except ParseError β}
    (hfg : ∀ a, v = .ok a → Limited limit (f a) (g a)) : Limited limit (u >>= f) (v >>= g) := by
  cases h with
  | cut p v => exact .cut p _
  | whole =>
    cases u with
    | error e => exact .whole _
    | ok a => exact hfg a rfl

theorem map (h : Limited limit u v) (f : α → β) : Limited limit (f <$> u) (f <$> v) := by
  cases h with
  | cut p v => exact .cut p _
  | whole v => exact .whole _

theorem mapM {as : List α} {f g : α → Except ParseError β}
    (h : ∀ a ∈ as, Limited limit (f a) (g a)) : Limited limit (as.mapM f) (as.mapM g) := by
  induction as with
  | nil => exact .whole _
  | cons a as ih =>
    rw [List.mapM_cons, List.mapM_cons]
    have hrest : Limited limit (as.mapM f) (as.mapM g) := ih fun b hb => h b (.tail _ hb)
    exact (h a (.head _)).bind fun _ _ => hrest.bind fun _ _ => .whole _

/-- A run that was not cut off ends as it does under any higher limit. -/
theorem eq_of_settled (h : Limited limit u v) (hu : Settled u) : u = v := by
  cases h with
  | cut p v => exact absurd rfl (hu limit (.offset p))
  | whole v => rfl

end Limited

namespace Settled

variable {u : Except ParseError α}

theorem ok (a : α) : Settled (.ok a : Except ParseError α) :=
  nofun

theorem error {fault : Fault} {position : Position} (h : ∀ limit, fault ≠ .nestingTooDeep limit) :
    Settled (.error ⟨fault, position⟩ : Except ParseError α) := by
  intro limit place heq
  cases heq
  exact h limit rfl

theorem map (h : Settled u) (f : α → β) : Settled (f <$> u) :=
  fun limit position hu => h limit position (Except.map_eq_error_iff.1 hu)

theorem bind (h : Settled u) {f : α → Except ParseError β} (hf : ∀ a, u = .ok a → Settled (f a)) :
    Settled (u >>= f) := by
  intro limit position hu
  rcases Except.bind_eq_error_iff.1 hu with hu | ⟨a, ha, hu⟩
  · exact h limit position hu
  · exact hf a ha limit position hu

end Settled

/-! ### Reading -/

namespace Lexeme

variable {limit limit' levels levels' : Nat}

/-- A level that the first run has left is left for the second one too, and reading there is cut off
or ends alike. -/
def InnerLimited (limit : Nat) (inner inner' : Option Reader) : Prop :=
  ∀ reader, inner = some reader →
    ∃ reader', inner' = some reader' ∧ ∀ gs, Limited limit (reader gs) (reader' gs)

variable {inner inner' : Option Reader}

theorem readInside_limited {reader reader' : Reader}
    (h : ∀ gs, Limited limit (reader gs) (reader' gs)) (call : UnreadCall) :
    Limited limit (readInside Atom.call reader call) (readInside Atom.call reader' call) :=
  (Limited.mapM fun argument _ => (h argument).bind fun _ _ => .whole _).bind fun _ _ => .whole _

theorem readCall_limited (hinner : InnerLimited limit inner inner') (limit' : Nat) (first : Glyph)
    (rest : List Glyph) :
    Limited limit (readCall limit inner first rest) (readCall limit' inner' first rest) := by
  simp only [readCall, cutCall]
  split
  case h_1 => exact .whole _
  case h_2 opening inside _ =>
    split
    case isTrue => exact .whole _
    case isFalse =>
      cases inner with
      | none => exact .cut opening.start _
      | some reader =>
        obtain ⟨reader', rfl, hreader⟩ := hinner reader rfl
        dsimp only
        split
        case h_1 => exact .whole _
        case h_2 arguments _ =>
          exact (readInside_limited hreader _).bind fun _ _ => .whole _

theorem readOne_limited (hinner : InnerLimited limit inner inner') (limit' : Nat)
    (before : Option Glyph) (g : Glyph) (rest : List Glyph) :
    Limited limit (readOne limit inner before g rest) (readOne limit' inner' before g rest) := by
  unfold readOne
  cases g.charClass with
  | letter => exact readCall_limited hinner limit' g rest
  | _ => exact .whole _

theorem scan_limited (hinner : InnerLimited limit inner inner') (limit' : Nat)
    (before : Option Glyph) (gs : List Glyph) :
    Limited limit (scan limit inner before gs) (scan limit' inner' before gs) := by
  induction before, gs using scan_induction with
  | nil before =>
    rw [scan_nil, scan_nil]
    exact .whole _
  | cons before g rest ih =>
    rw [scan_cons, scan_cons]
    exact (readOne_limited hinner limit' before g rest).bind fun r hr =>
      (ih (some r.last) r.rest (length_of_readOne hr)).map _

theorem read_limited (h : levels ≤ levels') (gs : List Glyph) :
    Limited limit (read limit levels gs) (read limit' levels' gs) := by
  rw [read_eq, read_eq]
  induction levels generalizing levels' gs with
  | zero =>
    have hinner : InnerLimited limit none (innerReader limit' levels') := nofun
    exact (scan_limited hinner limit' none gs).map _
  | succ levels ih =>
    obtain ⟨levels', rfl⟩ := Nat.exists_eq_add_of_lt (Nat.lt_of_succ_le h)
    have hinner : InnerLimited limit (innerReader limit (levels + 1))
        (innerReader limit' (levels + levels' + 1)) := by
      rintro _ ⟨⟩
      refine ⟨_, rfl, fun argument => ?_⟩
      rw [read_eq, read_eq]
      exact ih (Nat.le_add_right levels levels') argument
    exact (scan_limited hinner limit' none gs).map _

theorem Atom.call_settled (name : String) (arguments : List Atom) (position : Position) :
    Settled (Atom.call name arguments position) := by
  intro limit position' h
  unfold Atom.call Builtin.call at h
  split at h <;> cases h

/-- Calls cannot nest deeper than there are glyphs. -/
theorem read_settled {gs : List Glyph} (h : gs.length ≤ levels) :
    Settled (read limit levels gs) := by
  induction levels generalizing gs with
  | zero =>
    obtain rfl := List.eq_nil_of_length_eq_zero (Nat.le_zero.1 h)
    rw [read_eq, scan_nil]
    exact .ok _
  | succ levels ih =>
    intro limit' position hread
    obtain ⟨passed, g, rest, rfl, -, hrefused⟩ := exists_stepRefused_of_read hread
    cases hrefused with
    | call _ hrefused =>
      cases hrefused with
      | tooDeep _ _ hinner => cases hinner
      | call hcall => exact Atom.call_settled _ _ _ _ _ hcall
      | @argument opening inside argument reader arguments _ hinside hopening hinner hsplit
          hargument hrefused =>
        cases hrefused with
        | unread hread =>
          cases hinner
          refine ih ?_ _ _ hread
          have hdrop := (List.dropWhile_sublist (l := rest) Glyph.isLetter).length_le
          have hargument := (ArgumentList.enclosed_of_mem_all hopening hsplit hargument).length_lt
          rw [hinside] at hdrop
          rw [List.length_append, List.length_cons] at h
          omega

end Lexeme

/-! ### Postfix order -/

namespace Postfix

variable {limit limit' : Nat}

theorem arrange_limited (h : limit ≤ limit') (waiting : List (Spanned Operator))
    (frames : List Frame) (ts : List (Spanned (Token α))) :
    Limited limit (arrange limit waiting frames ts) (arrange limit' waiting frames ts) := by
  fun_induction arrange limit waiting frames ts with
  | case1 | case2 | case7 => exact .whole _
  | case3 waiting frames a start stop rest ih => exact ih.map _
  | case4 waiting frames o start stop rest _ ih => exact ih.map _
  | case5 waiting frames start => exact .cut start _
  | case6 waiting frames start stop rest hlimit ih =>
    rw [arrange, if_neg (by omega)]
    exact ih
  | case8 waiting start stop rest innermost frames ih => exact ih.map _

/-- Parentheses that nest no deeper than the limit are never cut off. -/
theorem arrange_settled {waiting : List (Spanned Operator)} {frames : List Frame}
    {ts : List (Spanned (Token α))}
    (h : Token.nestingFrom frames.length (ts.map (·.item)) ≤ limit) :
    Settled (arrange limit waiting frames ts) := by
  fun_induction arrange limit waiting frames ts with
  | case1 => exact .ok _
  | case2 | case7 => exact .error (by simp)
  | case3 waiting frames a start stop rest ih => exact (ih h).map _
  | case4 waiting frames o start stop rest _ ih => exact (ih h).map _
  | case5 waiting frames start stop rest hlimit =>
    have hless := Token.le_nestingFrom (frames.length + 1) (rest.map (·.item))
    rw [List.map_cons, Token.nestingFrom] at h
    omega
  | case6 waiting frames start stop rest hlimit ih => exact ih h
  | case8 waiting start stop rest innermost frames ih =>
    rw [List.map_cons, Token.nestingFrom] at h
    exact (ih (by simpa using Nat.le_trans (Nat.le_max_right _ _) h)).map _

/-- Parentheses nest no deeper than the limit if it has not cut them off. -/
theorem nestingFrom_le_of_order? {waiting : List Operator} {frames : List (List Operator)}
    {ts : List (Token α)} {terms : List (Term α)} (hframes : frames.length ≤ limit)
    (h : order? limit waiting frames ts = some terms) :
    Token.nestingFrom frames.length ts ≤ limit := by
  fun_induction order? limit waiting frames ts generalizing terms with
  | case1 => exact hframes
  | case2 | case5 | case7 => cases h
  | case3 waiting frames a rest ih =>
    obtain ⟨terms, hterms, -⟩ := Option.map_eq_some_iff.1 h
    exact ih hframes hterms
  | case4 waiting frames o rest ih =>
    obtain ⟨terms, hterms, -⟩ := Option.map_eq_some_iff.1 h
    exact ih hframes hterms
  | case6 waiting frames rest hlimit ih => exact ih (Nat.lt_of_not_le hlimit) h
  | case8 waiting rest outer frames ih =>
    obtain ⟨terms, hterms, -⟩ := Option.map_eq_some_iff.1 h
    exact Nat.max_le.2 ⟨hframes, ih (Nat.le_of_succ_le hframes) hterms⟩

end Postfix

theorem Tree.build_settled (stack : List (Pending α)) (terms : List (Spanned (Term α))) :
    Settled (build stack terms) := by
  fun_induction build stack terms with
  | case1 | case3 | case6 => exact .error (by simp)
  | case2 stack root => exact .ok _
  | case4 stack a start stop rest ih => exact ih
  | case5 start stop o rest right left below ih => exact ih

namespace Formula

variable {d d' : Nat} {text : String}

theorem lexemes_limited (h : d ≤ d') :
    Limited d (Formula.mk text d).lexemes (Formula.mk text d').lexemes :=
  Lexeme.read_limited h _

theorem terms_limited (h : d ≤ d') :
    Limited d (Formula.mk text d).terms (Formula.mk text d').terms :=
  (lexemes_limited h).bind fun _ _ => Postfix.arrange_limited h _ _ _

/-- A formula under a limit is cut off there or ends as it does under any higher limit. -/
theorem build_limited (h : d ≤ d') :
    Limited d (Formula.mk text d).build (Formula.mk text d').build := by
  rw [build_eq, build_eq]
  exact ((terms_limited h).bind fun _ _ => .whole _).map _

/-- There is a limit under which a formula is not cut off. -/
theorem exists_settled (text : String) : ∃ d, Settled (Formula.mk text d).build := by
  have hlexemes : Settled (Formula.mk text (glyphs text).length).lexemes :=
    Lexeme.read_settled (Nat.le_refl _)
  have hsame {d : Nat} (hd : (glyphs text).length ≤ d) :
      (Formula.mk text d).lexemes = (Formula.mk text (glyphs text).length).lexemes :=
    ((lexemes_limited hd).eq_of_settled hlexemes).symm
  have hbuild {d : Nat} (hd : (glyphs text).length ≤ d)
      (hnesting : ∀ ls, (Formula.mk text d).lexemes = .ok ls →
        Token.nesting (ls.map (·.item)) ≤ d) : Settled (Formula.mk text d).build := by
    rw [build_eq]
    refine Settled.map ?_ _
    refine Settled.bind ?_ fun _ _ => Tree.build_settled _ _
    refine Settled.bind (hsame hd ▸ hlexemes) fun ls hls => ?_
    exact Postfix.arrange_settled (hnesting ls hls)
  cases hread : (Formula.mk text (glyphs text).length).lexemes with
  | error e => exact ⟨(glyphs text).length, hbuild (Nat.le_refl _) (by simp [hread])⟩
  | ok ls =>
    refine ⟨max (glyphs text).length (Token.nesting (ls.map (·.item))),
      hbuild (Nat.le_max_left _ _) fun ls' hls' => ?_⟩
    rw [hsame (Nat.le_max_left _ _), hread] at hls'
    cases hls'
    exact Nat.le_max_right _ _

end Formula

end ComplexFormula
