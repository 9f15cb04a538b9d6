import ComplexFormula.Proofs.Juxtaposition
import ComplexFormula.Proofs.Ordering
import ComplexFormula.Proofs.Offsets
import ComplexFormula.Proofs.Acceptance
import ComplexFormula.Proofs.Steps

/-!
Texts without any operand or operator. Such a text has no terms, and it is the only kind that has
none: all of its parentheses are opened before any is closed, since a `*` is read between `)` and
`(`, and as many are closed as are opened.
-/

namespace ComplexFormula

variable {α : Type}

namespace Token

/-- Whether the token is a parenthesis. -/
def isParenthesis : Token α → Bool
  | opening => true
  | closing => true
  | _ => false

/-- The character of a parenthesis. -/
def bracket : Token α → Char
  | opening => '('
  | _ => ')'

/-- The parenthesis of a character. -/
def ofBracket (c : Char) : Token α :=
  if c = '(' then opening else closing

/-- Parentheses of which none is opened directly behind one that is closed. -/
theorem exists_eq_replicate {ts : List (Token α)} (hts : ∀ t ∈ ts, t.isParenthesis = true)
    (hchain : ts.IsChain fun left right => ¬ (left = closing ∧ right = opening)) :
    ∃ n m, ts = List.replicate n opening ++ List.replicate m closing := by
  induction ts with
  | nil => exact ⟨0, 0, rfl⟩
  | cons t ts ih =>
    obtain ⟨hhead, htail⟩ := List.isChain_cons.1 hchain
    obtain ⟨n, m, rfl⟩ := ih (fun u hu => hts u (.tail _ hu)) htail
    have ht : t.isParenthesis = true := hts t (.head _)
    cases t with
    | operand a => cases ht
    | operator o => cases ht
    | opening => exact ⟨n + 1, m, rfl⟩
    | closing =>
      cases n with
      | zero => exact ⟨0, m + 1, rfl⟩
      | succ n => exact absurd ⟨rfl, rfl⟩ (hhead opening rfl)

theorem multiplyFrom_replicate_closing (ended : Bool) (m : Nat) :
    multiplyFrom ended (List.replicate m closing) = List.replicate m closing := by
  induction m generalizing ended with
  | zero => rfl
  | succ m ih =>
    rw [List.replicate_succ, multiplyFrom, ih]
    simp [Lexeme.beginsFactor]

theorem multiplyFrom_replicate (n m : Nat) :
    multiplyFrom false (List.replicate n opening ++ List.replicate m closing) =
      List.replicate n opening ++ List.replicate m closing := by
  induction n with
  | zero => exact multiplyFrom_replicate_closing false m
  | succ n ih =>
    rw [List.replicate_succ, List.cons_append, multiplyFrom]
    simp [endsOperand, ih]

end Token

namespace Postfix

variable {limit : Nat} {waiting : List Operator} {frames : List (List Operator)}
  {ts : List (Token α)}

/-- Without terms, no operator has been waiting anywhere and nothing but parentheses follows. -/
theorem isParenthesis_of_order? (h : order? limit waiting frames ts = some []) :
    waiting = [] ∧ (∀ outer ∈ frames, outer = []) ∧ ∀ t ∈ ts, t.isParenthesis = true := by
  fun_induction order? limit waiting frames ts with
  | case1 waiting =>
    have hwaiting : waiting = [] := by simpa using h
    exact ⟨hwaiting, by simp, by simp⟩
  | case2 | case5 | case7 => cases h
  | case3 waiting frames a rest _ =>
    obtain ⟨terms, -, hterms⟩ := Option.map_eq_some_iff.1 h
    cases hterms
  | case4 waiting frames o rest ih =>
    obtain ⟨terms, hrest, hterms⟩ := Option.map_eq_some_iff.1 h
    obtain ⟨-, rfl⟩ := List.append_eq_nil_iff.1 hterms
    cases (ih hrest).1
  | case6 waiting frames rest _ ih =>
    obtain ⟨-, hframes, hrest⟩ := ih h
    obtain ⟨hwaiting, hframes⟩ := List.forall_mem_cons.1 hframes
    exact ⟨hwaiting, hframes, List.forall_mem_cons.2 ⟨rfl, hrest⟩⟩
  | case8 waiting rest outer frames ih =>
    obtain ⟨terms, hrest, hterms⟩ := Option.map_eq_some_iff.1 h
    obtain ⟨hwaiting, rfl⟩ := List.append_eq_nil_iff.1 hterms
    obtain ⟨houter, hframes, hrest⟩ := ih hrest
    exact ⟨by simpa using hwaiting, List.forall_mem_cons.2 ⟨houter, hframes⟩,
      List.forall_mem_cons.2 ⟨rfl, hrest⟩⟩

theorem order?_replicate_closing {k m : Nat} {terms : List (Term α)} :
    order? limit [] (List.replicate k []) (List.replicate m .closing) = some terms ↔
      terms = [] ∧ m = k := by
  induction m generalizing k with
  | zero =>
    cases k with
    | zero => simp [order?, eq_comm]
    | succ k => simp [order?, List.replicate_succ]
  | succ m ih =>
    cases k with
    | zero => simp [order?, List.replicate_succ]
    | succ k =>
      rw [List.replicate_succ, List.replicate_succ, order?, List.map_nil]
      simp [ih]

/-- Parentheses alone are arranged if they close what they open, within the limit. -/
theorem order?_replicate {k n m : Nat} {terms : List (Term α)} :
    order? limit [] (List.replicate k []) (List.replicate n .opening ++ List.replicate m .closing) =
      some terms ↔ terms = [] ∧ m = k + n ∧ (n = 0 ∨ k + n ≤ limit) := by
  induction n generalizing k with
  | zero => simp [order?_replicate_closing]
  | succ n ih =>
    rw [List.replicate_succ, List.cons_append, order?, List.length_replicate]
    split
    · simp
      omega
    · rw [← List.replicate_succ, ih]
      exact and_congr_right fun _ => by omega

end Postfix

/-! ### Back to the characters -/

namespace Text

theorem isAlpha_iff {c : Char} : c.isAlpha = true ↔
    (65 ≤ c.val.toNat ∧ c.val.toNat ≤ 90) ∨ (97 ≤ c.val.toNat ∧ c.val.toNat ≤ 122) := by
  have hupper : c.isUpper = true ↔ 65 ≤ c.val.toNat ∧ c.val.toNat ≤ 90 := decide_eq_true_iff
  have hlower : c.isLower = true ↔ 97 ≤ c.val.toNat ∧ c.val.toNat ≤ 122 :=
    Bool.and_eq_true_iff.trans (and_congr decide_eq_true_iff decide_eq_true_iff)
  exact Bool.or_eq_true_iff.trans (or_congr hupper hlower)

/-- A character that is no letter in lower case is one that has no lower case. -/
theorem toLower_eq_self {c : Char} (h : c.toLower.isAlpha = false) : c.toLower = c := by
  unfold Char.toLower at h ⊢
  split at h
  · next hupper =>
    -- a capital letter becomes a small one
    have hlow : 65 ≤ c.val.toNat := hupper.1
    have hhigh : c.val.toNat ≤ 90 := hupper.2
    have hval : (c.val + ('a'.val - 'A'.val)).toNat = c.val.toNat + 32 := by
      change (c.val.toNat + 32) % 2 ^ 32 = c.val.toNat + 32
      omega
    rw [← Bool.not_eq_true, isAlpha_iff] at h
    simp only [hval] at h
    omega
  · next hupper => rw [dif_neg hupper]

/-- Nothing but a letter is a letter in lower case. -/
theorem isAlpha_of_isAlpha_toLower {c : Char} (h : c.toLower.isAlpha = true) :
    c.isAlpha = true := by
  unfold Char.toLower at h
  split at h
  · next hupper => exact isAlpha_iff.2 (.inl hupper)
  · exact h

theorem eq_of_map_toLower {cs ds : List Char} (h : cs.map Char.toLower = ds)
    (hds : ∀ d ∈ ds, d.isAlpha = false) : cs = ds := by
  rw [← h, List.map_congr_left (g := id), List.map_id]
  exact fun c hc => toLower_eq_self (hds _ (h ▸ List.mem_map_of_mem hc))

end Text

namespace Lexeme

variable {limit : Nat} {inner : Option Reader} {before : Option Glyph} {gs : List Glyph}
  {ls : List Lexeme}

/-- No `*` is read between parentheses if there is nothing else. -/
theorem multiply_eq_self (h : ∀ l ∈ multiply ls, l.item.isParenthesis = true) :
    multiply ls = ls := by
  have hfilter : (multiply ls).filter (·.item.isParenthesis) =
      ls.filter (·.item.isParenthesis) := filter_multiply fun _ => rfl
  have hls : ∀ l ∈ ls, l.item.isParenthesis = true :=
    fun l hl => h l ((sublist_multiply ls).subset hl)
  rwa [List.filter_eq_self.2 h, List.filter_eq_self.2 hls] at hfilter

/-- Parentheses are read from nothing but themselves. -/
theorem Scans.items_of_isParenthesis (h : Scans limit inner before gs ls)
    (hls : ∀ l ∈ ls, l.item.isParenthesis = true) :
    gs.map (·.item) = ls.map (·.item.bracket) := by
  induction h with
  | nil => rfl
  | cons h _ ih =>
    obtain ⟨hread, htail⟩ := List.forall_mem_append.1 hls
    cases stepRead_of_readOne h with
    | opening hg => exact congrArg₂ _ hg (ih htail)
    | closing hg => exact congrArg₂ _ hg (ih htail)
    | literal _ _ hr =>
      obtain ⟨z, stop, hr⟩ := lexemes_of_readLiteral hr
      rw [hr] at hread
      cases hread _ (.head _)
    | free | imaginaryUnit | operator | negation => cases hread _ (.head _)
    | call _ hr =>
      obtain ⟨_, _, _, _, _, _, -, -, -, -, -, -, rfl⟩ := readCall_eq_ok_iff.1 hr
      cases hread _ (.head _)

/-- Each parenthesis is read as a token. -/
theorem scans_of_brackets (before : Option Glyph) (hgs : ∀ g ∈ gs, g.item = '(' ∨ g.item = ')') :
    Scans limit inner before gs (gs.map (Spanned.map Token.ofBracket)) := by
  induction gs generalizing before with
  | nil => exact .nil before
  | cons g gs ih =>
    obtain ⟨hg, hgs⟩ := List.forall_mem_cons.1 hgs
    have hread : readOne limit inner before g gs = .ok (.single (Token.ofBracket g.item) g gs) := by
      rcases hg with hg | hg
      · exact readOne_of_item hg (by rw [hg]; rfl)
      · exact readOne_of_item hg (by rw [hg]; rfl)
    exact .cons hread (ih (some g) hgs)

end Lexeme

namespace Formula

variable {f : Formula}

theorem terms_eq_nil_iff_order? : f.terms = .ok [] ↔ ∃ ls, f.lexemes = .ok ls ∧
    Postfix.order? f.depthLimit [] [] (ls.map (·.item)) = some [] := by
  constructor
  · intro h
    obtain ⟨ls, hls, hterms⟩ := Except.bind_eq_ok_iff.1 h
    exact ⟨ls, hls, Postfix.order?_of_ofTokens hterms⟩
  · rintro ⟨ls, hls, horder⟩
    obtain ⟨terms, hterms, hitems⟩ := Postfix.ofTokens_of_order? horder
    obtain rfl := List.map_eq_nil_iff.1 hitems
    exact Except.bind_eq_ok_iff.2 ⟨ls, hls, hterms⟩

/-- The texts without terms are those of nothing but parentheses, as many closed behind the others
as are opened, and no more than the limit allows. -/
theorem terms_eq_nil_iff : f.terms = .ok [] ↔ ∃ n ≤ f.depthLimit,
    f.text.toList.filter (fun c => !Text.isBlank c) =
      List.replicate n '(' ++ List.replicate n ')' := by
  rw [terms_eq_nil_iff_order?]
  constructor
  · rintro ⟨ls, hls, horder⟩
    obtain ⟨-, -, hitems⟩ := Postfix.isParenthesis_of_order? horder
    have hls' : ∀ l ∈ ls, l.item.isParenthesis = true := List.forall_mem_map.1 hitems
    have hchain : (ls.map (·.item)).IsChain
        fun left right => ¬ (left = .closing ∧ right = .opening) := by
      refine List.isChain_map_of_isChain _ ?_ (isChain_lexemes hls)
      rintro left right hjuxtaposed ⟨hleft, hright⟩
      simp [Lexeme.juxtaposed, hleft, hright, Token.endsOperand, Lexeme.beginsFactor]
        at hjuxtaposed
    obtain ⟨n, m, hreplicate⟩ := Token.exists_eq_replicate hitems hchain
    rw [hreplicate] at horder
    obtain ⟨-, hm, hn⟩ := (Postfix.order?_replicate (k := 0)).1 horder
    obtain rfl : m = n := by omega
    refine ⟨m, by omega, ?_⟩
    obtain ⟨scanned, hscans, rfl⟩ := lexemes_eq_ok_iff.1 hls
    have hself := Lexeme.multiply_eq_self hls'
    rw [hself] at hls' hreplicate
    have hitems : (glyphs f.text).map (·.item) = (scanned.map (·.item)).map Token.bracket := by
      rw [List.map_map]
      exact hscans.items_of_isParenthesis hls'
    rw [hreplicate, glyphs, items_glyphsFrom] at hitems
    simp only [List.map_append, List.map_replicate] at hitems
    refine Text.eq_of_map_toLower hitems fun d hd => ?_
    rcases List.mem_append.1 hd with hd | hd <;> rw [List.eq_of_mem_replicate hd] <;> rfl
  · rintro ⟨n, hn, htext⟩
    have hitems : (glyphs f.text).map (·.item) = List.replicate n '(' ++ List.replicate n ')' := by
      rw [glyphs, items_glyphsFrom, htext, List.map_append, List.map_replicate, List.map_replicate]
      rfl
    have hgs : ∀ g ∈ glyphs f.text, g.item = '(' ∨ g.item = ')' := by
      intro g hg
      have hmem : g.item ∈ (glyphs f.text).map (·.item) := List.mem_map_of_mem hg
      rw [hitems] at hmem
      exact (List.mem_append.1 hmem).imp List.eq_of_mem_replicate List.eq_of_mem_replicate
    refine ⟨_, lexemes_eq_ok_iff.2 ⟨_, Lexeme.scans_of_brackets none hgs, rfl⟩, ?_⟩
    have hscanned : ((glyphs f.text).map (Spanned.map Token.ofBracket)).map (·.item) =
        List.replicate n .opening ++ List.replicate n (.closing : Token Atom) := by
      rw [List.map_map]
      change (glyphs f.text).map (Token.ofBracket ∘ (·.item)) = _
      rw [← List.map_map, hitems, List.map_append, List.map_replicate, List.map_replicate]
      rfl
    rw [Lexeme.items_multiply, hscanned, Token.multiplyFrom_replicate]
    exact (Postfix.order?_replicate (k := 0)).2 ⟨rfl, by omega, .inr (by omega)⟩

end Formula

end ComplexFormula
