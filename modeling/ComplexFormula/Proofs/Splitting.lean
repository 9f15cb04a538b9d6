import ComplexFormula.Proofs.Offsets
import ComplexFormula.Proofs.Spelling
import ComplexFormula.Proofs.Writing

/-!
Cutting out the arguments of a call from a text. Texts that are balanced and parted by commas are
cut out just as they stand, each at its own offset. If the parenthesis of the call is not closed in
the text, nothing is cut out.
-/

namespace ComplexFormula

theorem glyphsFrom_append_text (start : Nat) (s t : String) : glyphsFrom start (s ++ t).toList =
    glyphsFrom start s.toList ++ glyphsFrom (start + s.utf8ByteSize) t.toList := by
  rw [String.toList_append, glyphsFrom_append, ← Text.utf8ByteSize_ofList, String.ofList_toList]

theorem glyphsFrom_opening (start : Nat) :
    glyphsFrom start "(".toList = [⟨'(', start, start + 1⟩] := rfl

theorem glyphsFrom_closing (start : Nat) :
    glyphsFrom start ")".toList = [⟨')', start, start + 1⟩] := rfl

theorem glyphsFrom_comma (start : Nat) :
    glyphsFrom start ",".toList = [⟨',', start, start + 1⟩] := rfl

namespace ArgumentList

/-- The glyphs of texts that are parted by commas, the first of which begins at the byte `start`. -/
def glyphsOf (start : Nat) : List String → List (List Glyph)
  | [] => []
  | t :: ts => glyphsFrom start t.toList :: glyphsOf (start + t.utf8ByteSize + 1) ts

/-- The byte behind some texts that begin at the byte `start` and have a comma behind each. -/
def startBehind (start : Nat) (ts : List String) : Nat :=
  start + (ts.map fun t => t.utf8ByteSize + 1).sum

theorem glyphsOf_append (start : Nat) (ts us : List String) :
    glyphsOf start (ts ++ us) = glyphsOf start ts ++ glyphsOf (startBehind start ts) us := by
  induction ts generalizing start with
  | nil => rfl
  | cons t ts ih =>
    rw [List.cons_append, glyphsOf, glyphsOf, ih, List.cons_append]
    simp [startBehind, Nat.add_assoc]

theorem length_glyphsOf (start : Nat) (ts : List String) :
    (glyphsOf start ts).length = ts.length := by
  induction ts generalizing start with
  | nil => rfl
  | cons t ts ih => exact congrArg (· + 1) (ih _)

theorem exists_of_mem_glyphsOf {start : Nat} {ts : List String} {gs : List Glyph}
    (h : gs ∈ glyphsOf start ts) : ∃ t ∈ ts, ∃ base, gs = glyphsFrom base t.toList := by
  induction ts generalizing start with
  | nil => cases h
  | cons t ts ih =>
    rcases List.mem_cons.1 h with rfl | h
    · exact ⟨t, .head _, start, rfl⟩
    · obtain ⟨u, hu, base, rfl⟩ := ih h
      exact ⟨u, .tail _ hu, base, rfl⟩

/-- Balanced texts with a comma behind each but the last, which is closed, are cut out as they
stand. -/
theorem split?_intercalate {ts : List String} (hts : ts ≠ [])
    (hbalanced : ∀ t ∈ ts, Balanced false (Text.spelling t)) (start : Nat) (behind : String) :
    ∃ a, split? 0 (glyphsFrom start (",".intercalate ts ++ ")" ++ behind).toList) = some a ∧
      a.all = glyphsOf start ts ∧
      a.rest = glyphsFrom (start + (",".intercalate ts).utf8ByteSize + 1) behind.toList := by
  induction ts generalizing start with
  | nil => exact absurd rfl hts
  | cons t ts ih =>
    have hitems : (glyphsFrom start t.toList).map (·.item) = Text.spelling t :=
      items_glyphsFrom start t.toList
    have ht : Balanced false (Text.spelling t) := hbalanced t (.head _)
    cases ts with
    | nil =>
      rw [String.intercalate_singleton, String.append_assoc, glyphsFrom_append_text,
        glyphsFrom_append_text, glyphsFrom_closing]
      exact ⟨_, split?_one ht hitems rfl, rfl, rfl⟩
    | cons u ts =>
      have hothers : ∀ v ∈ u :: ts, Balanced false (Text.spelling v) :=
        fun v hv => hbalanced v (.tail _ hv)
      obtain ⟨a, ha, hall, hrest⟩ := ih (List.cons_ne_nil u ts) hothers
        (start + t.utf8ByteSize + 1)
      refine ⟨{ a with first := glyphsFrom start t.toList, others := a.all }, ?_, ?_, ?_⟩
      · have htext : ",".intercalate (t :: u :: ts) ++ ")" ++ behind =
            t ++ ("," ++ (",".intercalate (u :: ts) ++ ")" ++ behind)) := by
          simp [String.append_assoc]
        rw [htext, glyphsFrom_append_text, glyphsFrom_append_text, glyphsFrom_comma]
        exact split?_comma ht hitems rfl ha
      · rw [glyphsOf, ← hall]
        rfl
      · have hsize : start + t.utf8ByteSize + 1 + (",".intercalate (u :: ts)).utf8ByteSize + 1 =
            start + (",".intercalate (t :: u :: ts)).utf8ByteSize + 1 := by
          rw [String.intercalate_cons_cons, String.utf8ByteSize_append, String.utf8ByteSize_append]
          have hcomma : ",".utf8ByteSize = 1 := rfl
          omega
        rw [← hsize]
        exact hrest

/-! ### Parentheses that are not closed -/

/-- The characters close `level` parentheses, one after the other, and one more. -/
def Closes : Nat → List Char → Prop
  | 0, cs => ∃ inside behind, cs = inside ++ ')' :: behind ∧ Balanced true inside
  | level + 1, cs => ∃ inside behind, cs = inside ++ ')' :: behind ∧ Balanced true inside ∧
      Closes level behind

namespace Closes

variable {level : Nat} {cs : List Char}

theorem cons (h : Closes level cs) {c : Char} (hopening : c ≠ '(') (hclosing : c ≠ ')') :
    Closes level (c :: cs) := by
  cases level with
  | zero =>
    obtain ⟨inside, behind, rfl, hinside⟩ := h
    exact ⟨c :: inside, behind, rfl, .char hopening hclosing nofun hinside⟩
  | succ level =>
    obtain ⟨inside, behind, rfl, hinside, hbehind⟩ := h
    exact ⟨c :: inside, behind, rfl, .char hopening hclosing nofun hinside, hbehind⟩

/-- The first parenthesis that is closed may be opened in front. -/
theorem opening (h : Closes (level + 1) cs) : Closes level ('(' :: cs) := by
  obtain ⟨inside, behind, rfl, hinside, hbehind⟩ := h
  cases level with
  | zero =>
    obtain ⟨more, behind, rfl, hmore⟩ := hbehind
    exact ⟨'(' :: (inside ++ ')' :: more), behind, by simp, .group hinside hmore⟩
  | succ level =>
    obtain ⟨more, behind, rfl, hmore, hbehind⟩ := hbehind
    exact ⟨'(' :: (inside ++ ')' :: more), behind, by simp, .group hinside hmore, hbehind⟩

theorem closing (h : Closes level cs) : Closes (level + 1) (')' :: cs) :=
  ⟨[], cs, rfl, .nil true, h⟩

end Closes

/-- If arguments are cut out, the parenthesis of their call is closed. -/
theorem closes_of_split? {level : Nat} {gs : List Glyph} {a : ArgumentList}
    (h : split? level gs = some a) : Closes level (gs.map (·.item)) := by
  fun_induction split? level gs generalizing a with
  | case1 => cases h
  | case2 level g rest hopening ih =>
    obtain ⟨b, hb, -⟩ := Option.map_eq_some_iff.1 h
    rw [List.map_cons, hopening]
    exact (ih hb).opening
  | case3 g rest _ hclosing =>
    rw [List.map_cons, hclosing]
    exact ⟨[], _, rfl, .nil true⟩
  | case4 g rest _ hclosing level ih =>
    obtain ⟨b, hb, -⟩ := Option.map_eq_some_iff.1 h
    rw [List.map_cons, hclosing]
    exact (ih hb).closing
  | case5 level g rest hopening hclosing hcomma ih =>
    obtain ⟨b, hb, -⟩ := Option.map_eq_some_iff.1 h
    obtain ⟨-, rfl⟩ := hcomma
    exact (ih hb).cons hopening hclosing
  | case6 level g rest hopening hclosing _ ih =>
    obtain ⟨b, hb, -⟩ := Option.map_eq_some_iff.1 h
    exact (ih hb).cons hopening hclosing

end ArgumentList

end ComplexFormula
