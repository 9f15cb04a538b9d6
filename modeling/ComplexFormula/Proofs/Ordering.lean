import ComplexFormula.Formula
import ComplexFormula.Proofs.Postorder
import ComplexFormula.Proofs.Success

/-!
The converter in the tokens alone. It does not look at where the tokens stand in the text, so it can
be studied with operators, frames and terms that carry no places.
-/

namespace ComplexFormula

variable {α : Type}

namespace Postfix

/-- The terms of a run of tokens, wherever these stand. -/
def order? (limit : Nat) (waiting : List Operator) (frames : List (List Operator)) :
    List (Token α) → Option (List (Term α))
  | [] =>
    match frames with
    | [] => some (waiting.map .operator)
    | _ :: _ => none
  | .operand a :: rest => (order? limit waiting frames rest).map (.operand a :: ·)
  | .operator o :: rest =>
    (order? limit (o :: waiting.dropWhile (·.bindsBefore o)) frames rest).map
      ((waiting.takeWhile (·.bindsBefore o)).map .operator ++ ·)
  | .opening :: rest =>
    if limit ≤ frames.length then none else order? limit [] (waiting :: frames) rest
  | .closing :: rest =>
    match frames with
    | [] => none
    | outer :: frames => (order? limit outer frames rest).map (waiting.map .operator ++ ·)

section arrange

variable {limit : Nat} {tokens : List (Spanned (Token α))}

theorem items_release (operators : List (Spanned Operator)) :
    (release operators : List (Spanned (Term α))).map (·.item) =
      (operators.map (·.item)).map .operator := by
  simp [release, Spanned.map]

/-- The converter does not look at where its tokens stand. -/
theorem toOption_arrange (limit : Nat) (waiting : List (Spanned Operator)) (frames : List Frame)
    (tokens : List (Spanned (Token α))) :
    (arrange limit waiting frames tokens).toOption.map (List.map (·.item)) =
      order? limit (waiting.map (·.item)) (frames.map (·.outer.map (·.item)))
        (tokens.map (·.item)) := by
  have map_toOption {β γ : Type} (f : β → γ) (e : Except ParseError β) :
      (f <$> e).toOption = e.toOption.map f := by
    cases e <;> rfl
  fun_induction arrange limit waiting frames tokens with
  | case1 waiting =>
    simp [Except.toOption, order?, items_release]
  | case2 => rfl
  | case3 waiting frames a start stop rest ih =>
    rw [map_toOption, List.map_cons, order?, ← ih, Option.map_map, Option.map_map]
    rfl
  | case4 waiting frames o start stop rest goesFirst =>
    rename_i ih
    rw [map_toOption, List.map_cons, order?, List.dropWhile_map, List.takeWhile_map,
      ← items_release, Option.map_map]
    refine Eq.trans ?_ (congrArg (Option.map _) ih)
    rw [Option.map_map]
    congr 1
    funext terms
    exact List.map_append
  | case5 waiting frames start stop rest hlimit =>
    rw [List.map_cons, order?, if_pos (by simpa using hlimit)]
    rfl
  | case6 waiting frames start stop rest hlimit ih =>
    rw [List.map_cons, order?, if_neg (by simpa using hlimit), ih]
    rfl
  | case7 => rfl
  | case8 waiting start stop rest innermost frames ih =>
    rw [map_toOption, List.map_cons, List.map_cons, order?, ← ih, Option.map_map, Option.map_map,
      ← items_release]
    congr 1
    funext terms
    exact List.map_append

theorem order?_of_ofTokens {terms : List (Spanned (Term α))}
    (h : ofTokens limit tokens = .ok terms) :
    order? limit [] [] (tokens.map (·.item)) = some (terms.map (·.item)) := by
  have := toOption_arrange limit [] [] tokens
  rw [ofTokens] at h
  rw [h] at this
  exact this.symm

theorem ofTokens_of_order? {items : List (Term α)}
    (h : order? limit [] [] (tokens.map (·.item)) = some items) :
    ∃ terms, ofTokens limit tokens = .ok terms ∧ terms.map (·.item) = items := by
  have harrange := toOption_arrange limit [] [] tokens
  rw [List.map_nil, List.map_nil, h] at harrange
  obtain ⟨terms, hterms, hitems⟩ := Option.map_eq_some_iff.1 harrange
  refine ⟨terms, ?_, hitems⟩
  rw [ofTokens]
  cases hok : arrange limit [] [] tokens with
  | error e => simp [hok, Except.toOption] at hterms
  | ok terms' => simpa [hok, Except.toOption] using hterms

end arrange

section order

variable {limit : Nat} {waiting : List Operator} {frames : List (List Operator)}

/-- Every operand of the terms is one of the tokens. -/
theorem mem_of_order? {ts : List (Token α)} {terms : List (Term α)}
    (h : order? limit waiting frames ts = some terms) {a : α} (ha : .operand a ∈ terms) :
    .operand a ∈ ts := by
  fun_induction order? limit waiting frames ts generalizing terms with
  | case1 waiting =>
    cases h
    simp at ha
  | case2 => cases h
  | case3 waiting frames b rest ih =>
    obtain ⟨terms, hterms, rfl⟩ := Option.map_eq_some_iff.1 h
    rcases List.mem_cons.1 ha with ha | ha
    · cases ha
      exact .head _
    · exact .tail _ (ih hterms ha)
  | case4 waiting frames o rest ih =>
    obtain ⟨terms, hterms, rfl⟩ := Option.map_eq_some_iff.1 h
    exact .tail _ (ih hterms (by simpa using ha))
  | case5 => cases h
  | case6 waiting frames rest _ ih => exact .tail _ (ih h ha)
  | case7 => cases h
  | case8 waiting rest outer frames ih =>
    obtain ⟨terms, hterms, rfl⟩ := Option.map_eq_some_iff.1 h
    exact .tail _ (ih hterms (by simpa using ha))

end order

end Postfix

/-- A formula has a tree exactly if its tokens are arranged as the terms of that tree. -/
theorem Formula.tree_eq_ok_iff {f : Formula} {t : Tree Atom} :
    f.tree = .ok t ↔ ∃ ls, f.lexemes = .ok ls ∧
      Postfix.order? f.depthLimit [] [] (ls.map (·.item)) = some t.postorder := by
  constructor
  · intro h
    obtain ⟨terms, hterms, ht⟩ := Except.bind_eq_ok_iff.1 h
    obtain ⟨ls, hls, hterms⟩ := Except.bind_eq_ok_iff.1 hterms
    refine ⟨ls, hls, ?_⟩
    rw [Postfix.order?_of_ofTokens hterms, Tree.ofPostfix_eq_ok_iff.1 ht]
  · rintro ⟨ls, hls, horder⟩
    obtain ⟨terms, hterms, hitems⟩ := Postfix.ofTokens_of_order? horder
    exact Except.bind_eq_ok_iff.2 ⟨terms, Except.bind_eq_ok_iff.2 ⟨ls, hls, hterms⟩,
      Tree.ofPostfix_eq_ok_iff.2 hitems⟩

end ComplexFormula
