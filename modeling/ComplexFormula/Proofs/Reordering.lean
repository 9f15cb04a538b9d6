import ComplexFormula.Proofs.Juxtaposition
import ComplexFormula.Proofs.Ordering

/-!
Terms in place of the variable. The terms of some tokens stay as they are when the tokens are put in
parentheses in place of the variable: what waits outside waits until the parenthesis closes, and
there is room for the parenthesis and those inside it where the limits add up.
-/

namespace ComplexFormula

variable {α : Type}

/-- The terms that stand in place of a term if others are put in place of the variable. -/
def Term.substitute (inside : List (Term Atom)) : Term Atom → List (Term Atom)
  | .operand .free => inside
  | t => [t]

namespace Postfix

variable {limit : Nat} {waiting : List Operator} {frames : List (List Operator)}

/-- Tokens that are arranged alone are arranged in the same way in front of a parenthesis that
closes them, and then it goes on outside. -/
theorem order?_append_closing {us rest : List (Token α)} {terms : List (Term α)}
    (h : order? limit waiting frames us = some terms) {limit' : Nat} {outer : List Operator}
    {outside : List (List Operator)} (hlimit : limit + outside.length + 1 ≤ limit') :
    order? limit' waiting (frames ++ outer :: outside) (us ++ .closing :: rest) =
      (order? limit' outer outside rest).map (terms ++ ·) := by
  fun_induction order? limit waiting frames us generalizing terms with
  | case1 waiting =>
    cases h
    rfl
  | case2 => cases h
  | case3 waiting frames b us ih =>
    obtain ⟨terms, hterms, rfl⟩ := Option.map_eq_some_iff.1 h
    rw [List.cons_append, order?, ih hterms, Option.map_map]
    rfl
  | case4 waiting frames o us ih =>
    obtain ⟨terms, hterms, rfl⟩ := Option.map_eq_some_iff.1 h
    rw [List.cons_append, order?, ih hterms, Option.map_map]
    congr 1
    funext
    simp
  | case5 => cases h
  | case6 waiting frames us hroom ih =>
    have hroom' : ¬ limit' ≤ (frames ++ outer :: outside).length := by
      simp only [List.length_append, List.length_cons]
      omega
    rw [List.cons_append, order?, if_neg hroom']
    exact ih h
  | case7 => cases h
  | case8 waiting us inner frames ih =>
    obtain ⟨terms, hterms, rfl⟩ := Option.map_eq_some_iff.1 h
    rw [List.cons_append, List.cons_append, order?, ih hterms, Option.map_map]
    congr 1
    funext
    simp

/-- Tokens in parentheses are arranged as they are alone, and nothing outside leaves for them. -/
theorem order?_group {ts rest : List (Token α)} {terms : List (Term α)}
    (h : order? limit [] [] ts = some terms) {limit' : Nat}
    (hlimit : limit + frames.length + 1 ≤ limit') :
    order? limit' waiting frames (.opening :: (ts ++ .closing :: rest)) =
      (order? limit' waiting frames rest).map (terms ++ ·) := by
  rw [order?, if_neg (by omega)]
  exact order?_append_closing h hlimit

/-- Arranging what stands in place of the variable, and arranging the rest around it. -/
theorem order?_substitute {limit₂ : Nat} {inside ts : List (Token Atom)}
    {insideTerms terms : List (Term Atom)}
    (hinside : order? limit₂ [] [] inside = some insideTerms)
    (h : order? limit waiting frames ts = some terms) (hframes : frames.length ≤ limit) :
    order? (limit + limit₂ + 1) waiting frames (ts.flatMap (Token.substitute inside)) =
      some (terms.flatMap (Term.substitute insideTerms)) := by
  have operators (os : List Operator) : (os.map Term.operator).flatMap
      (Term.substitute insideTerms) = os.map .operator := by
    rw [List.flatMap_map, List.map_eq_flatMap]
    rfl
  fun_induction order? limit waiting frames ts generalizing terms with
  | case1 waiting =>
    cases h
    rw [operators]
    rfl
  | case2 => cases h
  | case3 waiting frames a rest ih =>
    obtain ⟨terms, hterms, rfl⟩ := Option.map_eq_some_iff.1 h
    have hrest := ih hterms hframes
    rw [List.flatMap_cons, List.flatMap_cons]
    cases a with
    | free =>
      have hlimit : limit₂ + frames.length + 1 ≤ limit + limit₂ + 1 := by omega
      rw [Token.substitute_free, List.cons_append, List.append_assoc, List.singleton_append,
        order?_group hinside hlimit, hrest]
      rfl
    | _ =>
      change order? _ waiting frames (.operand _ :: rest.flatMap (Token.substitute inside)) = _
      rw [order?, hrest]
      rfl
  | case4 waiting frames o rest ih =>
    obtain ⟨terms, hterms, rfl⟩ := Option.map_eq_some_iff.1 h
    rw [List.flatMap_cons, List.flatMap_append, Token.substitute_operator, List.singleton_append,
      order?, ih hterms hframes, operators]
    rfl
  | case5 => cases h
  | case6 waiting frames rest hroom ih =>
    change order? _ waiting frames (.opening :: rest.flatMap (Token.substitute inside)) = _
    rw [order?, if_neg (by omega)]
    exact ih h (Nat.lt_of_not_le hroom)
  | case7 => cases h
  | case8 waiting rest outer frames ih =>
    obtain ⟨terms, hterms, rfl⟩ := Option.map_eq_some_iff.1 h
    change order? _ waiting (outer :: frames)
      (.closing :: rest.flatMap (Token.substitute inside)) = _
    rw [order?, ih hterms (Nat.le_of_succ_le hframes), List.flatMap_append, operators]
    rfl

end Postfix

end ComplexFormula
