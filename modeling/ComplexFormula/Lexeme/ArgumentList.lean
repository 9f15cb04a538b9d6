import ComplexFormula.Glyph

/-!
Cutting out the arguments of a call. They reach up to the `)` that closes the call and are parted by
the commas that stand in no parentheses of their own.
-/

namespace ComplexFormula

/-- The glyphs of each argument, the closing `)`, and the glyphs behind it. -/
structure ArgumentList where
  first : List Glyph
  others : List (List Glyph)
  closing : Glyph
  rest : List Glyph

namespace ArgumentList

/-- The arguments in order. -/
def all (a : ArgumentList) : List (List Glyph) :=
  a.first :: a.others

/-- One more glyph at the front of the first argument. -/
def push (g : Glyph) (a : ArgumentList) : ArgumentList :=
  { a with first := g :: a.first }

/-- An empty argument in front of the others. -/
def pushEmpty (a : ArgumentList) : ArgumentList :=
  { a with first := [], others := a.all }

/-- The arguments that stand inside a call, `level` parentheses deep. There are none if the call is
not closed. -/
def split? (level : Nat) : List Glyph → Option ArgumentList
  | [] => none
  | g :: rest =>
    if g.item = '(' then (split? (level + 1) rest).map (push g)
    else if g.item = ')' then
      match level with
      | 0 => some ⟨[], [], g, rest⟩
      | level + 1 => (split? level rest).map (push g)
    else if g.item = ',' ∧ level = 0 then (split? 0 rest).map pushEmpty
    else (split? level rest).map (push g)

/-- The characters of the arguments, with a comma between each two. -/
def joined (a : ArgumentList) : List Char :=
  a.first.map (·.item) ++ a.others.flatMap fun argument => ',' :: argument.map (·.item)

/-- The arguments that are cut out stand in front of a `)`, parted by commas. -/
theorem exists_inside_of_split? {level : Nat} {gs : List Glyph} {a : ArgumentList}
    (h : split? level gs = some a) : ∃ inside, gs = inside ++ a.closing :: a.rest ∧
      inside.map (·.item) = a.joined ∧ a.closing.item = ')' := by
  fun_induction split? level gs generalizing a with
  | case1 => cases h
  | case3 g rest _ hclosing =>
    cases h
    exact ⟨[], rfl, rfl, hclosing⟩
  | case2 level g rest _ ih | case4 g rest _ _ level ih | case6 level g rest _ _ _ ih =>
    obtain ⟨b, hb, rfl⟩ := Option.map_eq_some_iff.1 h
    obtain ⟨inside, rfl, hinside, hclosing⟩ := ih hb
    exact ⟨g :: inside, rfl, by simp [joined, push, hinside], hclosing⟩
  | case5 level g rest _ _ hcomma ih =>
    obtain ⟨b, hb, rfl⟩ := Option.map_eq_some_iff.1 h
    obtain ⟨inside, rfl, hinside, hclosing⟩ := ih hb
    exact ⟨g :: inside, rfl, by simp [joined, pushEmpty, all, hcomma.1, hinside], hclosing⟩

/-- What is left behind a call is shorter than what its arguments begin. -/
theorem length_of_split? {level : Nat} {gs : List Glyph} {a : ArgumentList}
    (h : split? level gs = some a) : a.rest.length < gs.length := by
  obtain ⟨inside, rfl, -, -⟩ := exists_inside_of_split? h
  rw [List.length_append, List.length_cons]
  omega

end ArgumentList

end ComplexFormula
