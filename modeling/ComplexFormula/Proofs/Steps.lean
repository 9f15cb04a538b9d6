import ComplexFormula.Proofs.Coverage
import ComplexFormula.Proofs.Embedding

/-!
What one step of the scanner can read: a number, the variable, a parenthesis, an operator, a factor
`-1` or a call. Only a call depends on the limit and on how its arguments are read.
-/

namespace ComplexFormula

/-- The one character of a class, if it has no other. -/
def CharClass.char? : CharClass → Option Char
  | free => some 'x'
  | imaginaryUnit => some 'i'
  | opening => some '('
  | closing => some ')'
  | operator o => some o.symbol
  | _ => none

theorem Glyph.item_eq_of_char? {g : Glyph} {c : Char} (h : g.charClass.char? = some c) :
    g.item = c := by
  unfold charClass at h
  repeat' split at h
  all_goals cases h
  case h_1 o ho =>
    have hsymbol := List.find?_some ho
    exact (beq_iff_eq.1 hsymbol).symm
  all_goals assumption

theorem Glyph.isLetter_of_charClass {g : Glyph} (h : g.charClass = .letter) :
    g.isLetter = true := by
  unfold charClass at h
  repeat' split at h
  all_goals first | assumption | cases h

namespace Lexeme

variable {limit : Nat} {inner : Option Reader} {before : Option Glyph} {g : Glyph}
  {rest : List Glyph} {r : Reading}

/-- What a step reads. -/
inductive StepRead (limit : Nat) (inner : Option Reader) (g : Glyph) (rest : List Glyph) :
    Reading → Prop
  /-- A number, without a sign or behind a `-`. -/
  | literal {negative : Bool} {sign : List Glyph} {first : Glyph} {after : List Glyph} {r : Reading}
      (hrun : g :: rest = sign ++ first :: after) (hfirst : first.isNumeral = true)
      (h : readLiteral g.start negative first after = .ok r) : StepRead limit inner g rest r
  | free (hg : g.item = 'x') : StepRead limit inner g rest (.single (.operand .free) g rest)
  | imaginaryUnit (hg : g.item = 'i') :
      StepRead limit inner g rest (.single (.operand (.number .imaginaryUnit)) g rest)
  | opening (hg : g.item = '(') : StepRead limit inner g rest (.single .opening g rest)
  | closing (hg : g.item = ')') : StepRead limit inner g rest (.single .closing g rest)
  | operator {o : Operator} (hg : g.item = o.symbol) :
      StepRead limit inner g rest (.single (.operator o) g rest)
  | negation (hg : g.item = '-') : StepRead limit inner g rest
      ⟨[g.map fun _ => .operand (.number .minusOne), g.map fun _ => .operator .mul], g, rest⟩
  | call {r : Reading} (hclass : g.charClass = .letter) (h : readCall limit inner g rest = .ok r) :
      StepRead limit inner g rest r

theorem stepRead_of_readOne (h : readOne limit inner before g rest = .ok r) :
    StepRead limit inner g rest r := by
  unfold readOne at h
  cases hclass : g.charClass <;> simp only [hclass] at h
  case numeral =>
    exact .literal (List.nil_append _).symm (Glyph.charClass_eq_numeral_iff.1 hclass) h
  case free =>
    cases h
    exact .free (Glyph.item_eq_of_char? (by rw [hclass]; rfl))
  case imaginaryUnit =>
    cases h
    exact .imaginaryUnit (Glyph.item_eq_of_char? (by rw [hclass]; rfl))
  case letter => exact .call hclass h
  case opening =>
    cases h
    exact .opening (Glyph.item_eq_of_char? (by rw [hclass]; rfl))
  case closing =>
    cases h
    exact .closing (Glyph.item_eq_of_char? (by rw [hclass]; rfl))
  case operator o =>
    have hg := Glyph.item_of_charClass hclass
    split at h
    case isFalse =>
      cases h
      exact .operator hg
    case isTrue hsign =>
      obtain ⟨rfl, -⟩ := hsign
      cases hnumeral : rest.head?.any Glyph.isNumeral with
      | true =>
        obtain ⟨next, hnext, hnumeral⟩ := (Option.any_eq_true _ _).1 hnumeral
        obtain ⟨after, rfl⟩ := List.head?_eq_some_iff.1 hnext
        rw [readSign_of_isNumeral hnumeral] at h
        exact .literal List.singleton_append.symm hnumeral h
      | false =>
        rw [readSign_of_not_isNumeral hnumeral] at h
        cases h
        split
        · exact .negation hg
        · exact .operator hg
  case foreign => cases h

theorem readOne_of_letter (hclass : g.charClass = .letter) :
    readOne limit inner before g rest = readCall limit inner g rest := by
  simp only [readOne, hclass]

/-- All but calls are read in the same way under any limit. -/
theorem readOne_congr {limit' : Nat} {inner' : Option Reader} (hclass : g.charClass ≠ .letter) :
    readOne limit inner before g rest = readOne limit' inner' before g rest := by
  unfold readOne
  cases hg : g.charClass <;> first | rfl | exact absurd hg hclass

end Lexeme

end ComplexFormula
