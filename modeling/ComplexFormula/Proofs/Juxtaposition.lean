import ComplexFormula.Proofs.Embedding

/-!
The `*` that is not written, seen in the tokens alone. Whether one is read before a token depends on
whether an operand ends before it, so a group in parentheses is multiplied by its neighbours just as
the variable in its place would be, and within the group nothing changes.
-/

namespace ComplexFormula

namespace Token

/-- Puts in each `*` that is not written, where `ended` tells whether an operand ends in front. -/
def multiplyFrom (ended : Bool) : List (Token Atom) → List (Token Atom)
  | [] => []
  | t :: rest =>
    if ended && Lexeme.beginsFactor t then .operator .mul :: t :: multiplyFrom t.endsOperand rest
    else t :: multiplyFrom t.endsOperand rest

/-- The tokens that stand in place of a token if others are put in place of the variable. -/
def substitute (inside : List (Token Atom)) (t : Token Atom) : List (Token Atom) :=
  if t.isFree then .opening :: (inside ++ [.closing]) else [t]

@[simp] theorem substitute_free (inside : List (Token Atom)) :
    substitute inside (.operand .free) = .opening :: (inside ++ [.closing]) := rfl

@[simp] theorem substitute_operator (inside : List (Token Atom)) (o : Operator) :
    substitute inside (.operator o) = [.operator o] := rfl

theorem eq_free_of_isFree {t : Token Atom} (h : t.isFree = true) : t = .operand .free := by
  unfold isFree at h
  split at h
  · rfl
  · cases h

/-- A parenthesis that closes parts what is before it from what is behind it. -/
theorem multiplyFrom_append_closing (ended : Bool) (us rest : List (Token Atom)) :
    multiplyFrom ended (us ++ .closing :: rest) =
      multiplyFrom ended us ++ .closing :: multiplyFrom true rest := by
  induction us generalizing ended with
  | nil => simp [multiplyFrom, Lexeme.beginsFactor, endsOperand]
  | cons t us ih =>
    rw [List.cons_append, multiplyFrom, multiplyFrom, ih]
    split <;> rfl

theorem multiplyFrom_substitute (ended : Bool) (inside ts : List (Token Atom)) :
    multiplyFrom ended (ts.flatMap (substitute inside)) =
      (multiplyFrom ended ts).flatMap (substitute (multiplyFrom false inside)) := by
  induction ts generalizing ended with
  | nil => rfl
  | cons t ts ih =>
    cases hfree : t.isFree with
    | true =>
      obtain rfl := eq_free_of_isFree hfree
      cases ended <;>
        simp [multiplyFrom, multiplyFrom_append_closing, ih, endsOperand, Lexeme.beginsFactor]
    | false =>
      have hsubstitute (us : List (Token Atom)) : substitute us t = [t] := by
        simp [substitute, hfree]
      rw [List.flatMap_cons, hsubstitute, List.singleton_append, multiplyFrom, multiplyFrom, ih]
      split <;> simp [hsubstitute, substitute_operator]

end Token

namespace Lexeme

theorem items_multiply (ls : List Lexeme) :
    (multiply ls).map (·.item) = Token.multiplyFrom false (ls.map (·.item)) := by
  suffices h : ∀ (left : Lexeme) (rest : List Lexeme), (multiply (left :: rest)).map (·.item) =
      left.item :: Token.multiplyFrom left.item.endsOperand (rest.map (·.item)) by
    cases ls with
    | nil => rfl
    | cons left rest => exact h left rest
  intro left rest
  induction rest generalizing left with
  | nil => rfl
  | cons right rest ih =>
    rw [multiply, List.map_cons, Token.multiplyFrom, ← juxtaposed]
    split <;> simp [ih, times]

theorem sublist_multiply (ls : List Lexeme) : ls.Sublist (multiply ls) := by
  fun_induction multiply ls with
  | case1 => exact .slnil
  | case2 => exact .refl _
  | case3 left right rest _ ih => exact .cons_cons _ (.cons _ ih)
  | case4 left right rest _ ih => exact .cons_cons _ ih

/-- A lexeme on its own is read as it stands. -/
theorem multiply_eq_singleton {ls : List Lexeme} {l : Lexeme} (h : multiply ls = [l]) :
    ls = [l] := by
  fun_cases multiply ls with
  | case1 => cases h
  | case2 => exact h
  | case3 => simp_all [multiply]
  | case4 left right rest hjuxtaposed =>
    have hhead := head?_multiply (right :: rest)
    simp_all [multiply]

theorem mem_multiply_iff {l : Lexeme} (hl : l.item.isFree = true) {ls : List Lexeme} :
    l ∈ multiply ls ↔ l ∈ ls := by
  have hfilter : (multiply ls).filter (·.item.isFree) = ls.filter (·.item.isFree) :=
    filter_multiply fun _ => rfl
  have hmem := congrArg (l ∈ ·) hfilter
  simpa [hl] using hmem

theorem refines_of_inner {limit limit' levels levels' : Nat}
    (hinner : InnerRefines (innerReader limit levels) (innerReader limit' levels')) :
    Refines (read limit levels) (read limit' levels') := by
  intro gs gs' ls hitems hread
  obtain ⟨scanned, hscans, rfl⟩ := read_eq_ok_iff.1 hread
  have hawaits : awaitsOperand none = true := rfl
  have hstops : Stops [] := by simp [Stops]
  obtain ⟨scanned', hscanned', hscans'⟩ :=
    hscans.embeds hinner hawaits hawaits hitems hstops .nil
  rw [List.append_nil, List.append_nil] at hscans'
  refine ⟨multiply scanned', read_eq_ok_iff.2 ⟨scanned', hscans', rfl⟩, ?_⟩
  rw [items_multiply, items_multiply, hscanned']

/-- With more levels left and a higher limit no less is read, and nothing differently. -/
theorem innerReader_refines {limit limit' levels levels' : Nat} (h : levels ≤ levels') :
    InnerRefines (innerReader limit levels) (innerReader limit' levels') := by
  induction levels generalizing levels' with
  | zero => simp [InnerRefines, innerReader]
  | succ levels ih =>
    obtain ⟨levels', rfl⟩ := Nat.exists_eq_add_of_lt (Nat.lt_of_succ_le h)
    rintro _ ⟨⟩
    exact ⟨_, rfl, refines_of_inner (ih (by omega))⟩

end Lexeme

end ComplexFormula
