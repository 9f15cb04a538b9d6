import ComplexFormula.Proofs.Leaves
import ComplexFormula.Proofs.RowMajor
import ComplexFormula.Proofs.Signs

/-!
Whether an expression is constant. It is not constant exactly if an `x` is read as the variable when
its formula is read, be it at the top or in an argument of a call, however deep. A constant
expression has one value for all values of the variable, so it takes all pixels of an image to the
same place.
-/

namespace ComplexFormula

/-- The operand stands in another one: it is that operand, or stands in an argument of that call. -/
inductive Atom.Within (a : Atom) : Atom → Prop
  | self : Within a a
  | argument (f : Builtin.Unary) {b : Atom} (h : Within a b) : Within a (.unary f b)
  | left (f : Builtin.Binary) {b : Atom} (c : Atom) (h : Within a b) : Within a (.binary f b c)
  | right (f : Builtin.Binary) (b : Atom) {c : Atom} (h : Within a c) : Within a (.binary f b c)

namespace Atom

/-- The variable occurs in an operand if it stands in it. -/
theorem within_free_iff {a : Atom} : Within .free a ↔ a.hasVariable = true := by
  constructor
  · intro h
    induction h with
    | self => rfl
    | argument f _ ih => exact ih
    | left f c _ ih => simp [hasVariable, ih]
    | right f b _ ih => simp [hasVariable, ih]
  · intro h
    induction a with
    | number z => cases h
    | free => exact .self
    | unary f b ih => exact .argument f (ih h)
    | binary f b c ihb ihc =>
      rcases Bool.or_eq_true_iff.1 h with h | h
      · exact .left f c (ihb h)
      · exact .right f b (ihc h)

/-- The variable occurs in a call if it occurs in an argument. -/
theorem hasVariable_of_call {name : String} {arguments : List Atom} {position : Position} {a : Atom}
    (h : call name arguments position = .ok a) :
    a.hasVariable = true ↔ ∃ b ∈ arguments, b.hasVariable = true := by
  rcases Builtin.call_eq_ok_iff.1 h with ⟨f, b, -, rfl, rfl⟩ | ⟨f, b, c, -, rfl, rfl⟩ <;>
    simp [hasVariable]

end Atom

namespace Expression

/-- An expression is constant if all its operands are. -/
theorem isConstant_eq_all (e : Expression) : e.isConstant = e.operands.all (!·.isChanging) := by
  rw [isConstant, operands, Node.operands, List.all_filterMap]
  congr 1
  funext node
  cases node <;> rfl

/-- All operands of an expression have been made ready. -/
theorem made_of_mem_operands_ofNodes {nodes : List (Node Atom)} {a : Operand}
    (h : a ∈ (ofNodes nodes).operands) : a.Made := by
  obtain ⟨node, hnode, hleaf⟩ := List.mem_filterMap.1 h
  cases node with
  | leaf b =>
    cases hleaf
    exact made_of_mem_nodes_ofNodes hnode
  | branch o l r => cases hleaf

/-- No value of the variable is read where no operand changes with it. -/
theorem evaluate_eq_of_isConstant {e : Expression} (hmade : ∀ a ∈ e.operands, a.Made)
    (h : e.isConstant = true) (x y : ComplexFloat) : e.evaluate x = e.evaluate y := by
  rw [isConstant_eq_all, List.all_eq_true] at h
  rw [evaluate_eq_rootValue?, evaluate_eq_rootValue?]
  congr 2
  refine List.map_congr_left fun node hnode => ?_
  cases node with
  | branch o l r => rfl
  | leaf a =>
    have ha : a ∈ e.operands := List.mem_filterMap.2 ⟨_, hnode, rfl⟩
    obtain ⟨b, rfl⟩ := (hmade a ha).exists_fold
    have hconstant := h _ ha
    rw [b.isChanging_fold, Bool.not_eq_true'] at hconstant
    rw [Node.map, Node.map, b.evaluate_fold, b.evaluate_fold,
      Atom.evaluate_eq_of_not_hasVariable hconstant x y]

end Expression

/-- A function of one value takes all pixels to the same place. -/
theorem Raster.remap_const (r : Raster) {f : ComplexFloat → ComplexFloat}
    (h : ∀ x y, f x = f y) (z : ComplexFloat) :
    r.remap f = List.replicate (r.width * r.height) ((r.pixel? (f z)).map r.index) := by
  refine List.eq_replicate_iff.2 ⟨r.length_remap f, ?_⟩
  intro entry hentry
  obtain ⟨row, -, hentry⟩ := List.mem_flatMap.1 hentry
  obtain ⟨column, -, rfl⟩ := List.mem_map.1 hentry
  rw [h (r.point column row) z]

/-! ### Where the variable is read -/

namespace Lexeme

/-- The variable occurs in an operand of the lexemes. -/
def HaveVariable (ls : List Lexeme) : Prop :=
  ∃ l ∈ ls, ∃ a, l.item = .operand a ∧ a.hasVariable = true

theorem haveVariable_append {ls ms : List Lexeme} :
    HaveVariable (ls ++ ms) ↔ HaveVariable ls ∨ HaveVariable ms := by
  simp only [HaveVariable, List.mem_append, or_and_right, exists_or]

theorem haveVariable_singleton {l : Lexeme} :
    HaveVariable [l] ↔ ∃ a, l.item = .operand a ∧ a.hasVariable = true := by
  simp only [HaveVariable, List.mem_singleton, exists_eq_left]

theorem haveVariable_iff_operands {ls : List Lexeme} : HaveVariable ls ↔
    ∃ a ∈ Token.operands (ls.map (·.item)), a.hasVariable = true := by
  simp only [HaveVariable, Token.operands, List.mem_filterMap, List.mem_map,
    Token.operand?_eq_some_iff]
  constructor
  · rintro ⟨l, hl, a, hitem, hfree⟩
    exact ⟨a, ⟨_, ⟨l, hl, rfl⟩, hitem⟩, hfree⟩
  · rintro ⟨a, ⟨_, ⟨l, hl, rfl⟩, hitem⟩, hfree⟩
    exact ⟨l, hl, a, hitem, hfree⟩

theorem haveVariable_multiply {ls : List Lexeme} :
    HaveVariable (multiply ls) ↔ HaveVariable ls := by
  rw [haveVariable_iff_operands, haveVariable_iff_operands, operands_multiply]

variable {limit : Nat} {inner : Option Reader} {before : Option Glyph} {g : Glyph}
  {rest : List Glyph} {r : Reading}

/-- A step that reads the variable reads an `x`, or a call. -/
theorem readCall_of_haveVariable (h : readOne limit inner before g rest = .ok r)
    (hvariable : HaveVariable r.lexemes) :
    g.item = 'x' ∨ g.charClass = .letter ∧ readCall limit inner g rest = .ok r := by
  cases stepRead_of_readOne h with
  | free hg => exact .inl hg
  | call hclass h => exact .inr ⟨hclass, h⟩
  | literal _ _ h =>
    obtain ⟨z, stop, hlexemes⟩ := lexemes_of_readLiteral h
    simp [HaveVariable, hlexemes, Atom.hasVariable] at hvariable
  | imaginaryUnit | opening | closing | operator =>
    simp [HaveVariable, Reading.single, Spanned.map, Atom.hasVariable] at hvariable
  | negation => simp [HaveVariable, Spanned.map, Atom.hasVariable] at hvariable

/-- If the variable occurs in a call, it does in an argument. -/
theorem exists_argument_of_haveVariable (h : readCall limit inner g rest = .ok r)
    (hvariable : HaveVariable r.lexemes) :
    ∃ opening inside arguments, rest.dropWhile Glyph.isLetter = opening :: inside ∧
      opening.item = '(' ∧ ArgumentList.split? 0 inside = some arguments ∧
      ∃ argument ∈ arguments.all, ∃ reader l, inner = some reader ∧ reader argument = .ok [l] ∧
        HaveVariable [l] := by
  obtain ⟨opening, inside, reader, arguments, atoms, a, hinside, hopening, hreader, harguments,
    hatoms, ha, rfl⟩ := readCall_eq_ok_iff.1 h
  obtain ⟨_, ⟨⟩, hfree⟩ := haveVariable_singleton.1 hvariable
  obtain ⟨b, hb, hfree⟩ := (Atom.hasVariable_of_call ha).1 hfree
  obtain ⟨argument, hargument, l, hl, hitem⟩ := exists_of_mem_of_mapM hatoms hb
  exact ⟨opening, inside, arguments, hinside, hopening, harguments, argument, hargument, reader, l,
    hreader, hl, haveVariable_singleton.2 ⟨b, hitem, hfree⟩⟩

/-- If the variable occurs in an argument, it does in the call. -/
theorem haveVariable_of_argument (h : readCall limit inner g rest = .ok r)
    {opening : Glyph} {inside argument : List Glyph} {arguments : ArgumentList}
    (hinside : rest.dropWhile Glyph.isLetter = opening :: inside)
    (harguments : ArgumentList.split? 0 inside = some arguments)
    (hargument : argument ∈ arguments.all) :
    ∃ reader l, inner = some reader ∧ reader argument = .ok [l] ∧
      (HaveVariable [l] → HaveVariable r.lexemes) := by
  obtain ⟨_, _, reader, _, atoms, a, hinside', -, hreader, harguments', hatoms, ha, rfl⟩ :=
    readCall_eq_ok_iff.1 h
  cases hinside.symm.trans hinside'
  cases harguments.symm.trans harguments'
  obtain ⟨b, hb, hread⟩ := Except.exists_mem_of_mapM_eq_ok hatoms hargument
  obtain ⟨l, hl, hitem⟩ := readArgument_eq_ok_iff.1 hread
  refine ⟨reader, l, hreader, hl, fun hvariable => ?_⟩
  obtain ⟨c, hc, hfree⟩ := haveVariable_singleton.1 hvariable
  obtain rfl : b = c := by simpa [hitem] using hc
  exact haveVariable_singleton.2 ⟨a, rfl, (Atom.hasVariable_of_call ha).2 ⟨b, hb, hfree⟩⟩

end Lexeme

namespace Formula

open Lexeme

variable {f : Formula} {levels : Nat} {before : Option Glyph} {read ls tail : List Lexeme}
  {gs : List Glyph}

/-- At some moment of reading the formula or an argument in it, the next character is an `x`, which
is then read as the variable. -/
def ReadsVariable (f : Formula) : Prop :=
  ∃ levels before read g rest, Reached f levels before read (g :: rest) ∧ g.item = 'x'

/-- Where the variable occurs in what is read, it is read then, or it occurs in an argument. -/
theorem Reached.readsVariable_or (h : Reached f levels before read gs)
    (hscans : Scans f.depthLimit (innerReader f.depthLimit levels) before gs tail)
    (hvariable : HaveVariable tail) :
    f.ReadsVariable ∨ ∃ less argument l, levels = less + 1 ∧ Reached f less none [] argument ∧
      Scans f.depthLimit (innerReader f.depthLimit less) none argument [l] ∧ HaveVariable [l] := by
  obtain ⟨l, hl, hfree⟩ := hvariable
  obtain ⟨front, after, hsplit⟩ := List.append_of_mem hl
  obtain ⟨_, lead, trail, before', g, rest, r, hreached, -, hread, hr, -⟩ :=
    h.exists_step hscans hsplit
  have hstep : HaveVariable r.lexemes := ⟨l, by simp [hr], hfree⟩
  rcases readCall_of_haveVariable hread hstep with hg | ⟨hclass, hcall⟩
  · exact .inl ⟨_, _, _, g, rest, hreached, hg⟩
  · obtain ⟨opening, inside, arguments, hinside, hopening, harguments, argument, hargument, reader,
      l', hreader, hl', hinner⟩ := exists_argument_of_haveVariable hcall hstep
    cases levels with
    | zero => cases hreader
    | succ less =>
      cases hreader
      obtain ⟨scanned, hscanned, hmultiply⟩ := read_eq_ok_iff.1 hl'
      obtain rfl := multiply_eq_singleton hmultiply
      exact .inr ⟨less, argument, l', rfl,
        hreached.argument hclass hinside hopening harguments hargument, hscanned, hinner⟩

/-- Where the variable occurs in what is read, it is read at some moment. -/
theorem Reached.readsVariable (h : Reached f levels before read gs)
    (hscans : Scans f.depthLimit (innerReader f.depthLimit levels) before gs tail)
    (hvariable : HaveVariable tail) : f.ReadsVariable := by
  induction levels generalizing before read gs tail with
  | zero =>
    rcases h.readsVariable_or hscans hvariable with hreads | ⟨_, _, _, hlevels, -⟩
    · exact hreads
    · cases hlevels
  | succ levels ih =>
    rcases h.readsVariable_or hscans hvariable with hreads | ⟨_, _, _, ⟨⟩, hreached, hl, hinner⟩
    · exact hreads
    · exact ih hreached hl hinner

/-- Each moment is one of a run whose lexemes count for those of the formula. -/
theorem Reached.exists_scans (h : Reached f levels before read gs) (hls : f.lexemes = .ok ls) :
    ∃ tail, Scans f.depthLimit (innerReader f.depthLimit levels) before gs tail ∧
      (HaveVariable tail → HaveVariable ls) := by
  induction h with
  | text =>
    obtain ⟨scanned, hscans, rfl⟩ := lexemes_eq_ok_iff.1 hls
    exact ⟨scanned, hscans, haveVariable_multiply.2⟩
  | step _ hread ih =>
    obtain ⟨tail, hscans, htail⟩ := ih
    cases hscans with
    | cons hread' hrest =>
      cases hread.symm.trans hread'
      exact ⟨_, hrest, fun hvariable => htail (haveVariable_append.2 (.inr hvariable))⟩
  | argument _ hclass hinside _ harguments hargument ih =>
    obtain ⟨tail, hscans, htail⟩ := ih
    cases hscans with
    | cons hread _ =>
      rw [readOne_of_letter hclass] at hread
      obtain ⟨_, l, ⟨⟩, hl, hcall⟩ := haveVariable_of_argument hread hinside harguments hargument
      obtain ⟨scanned, hscans, hmultiply⟩ := read_eq_ok_iff.1 hl
      obtain rfl := multiply_eq_singleton hmultiply
      exact ⟨[l], hscans, fun hvariable => htail (haveVariable_append.2 (.inl (hcall hvariable)))⟩

/-- The variable is read just where it occurs in the lexemes in the end. -/
theorem readsVariable_iff (hls : f.lexemes = .ok ls) : f.ReadsVariable ↔ HaveVariable ls := by
  constructor
  · rintro ⟨levels, before, read, g, rest, hreached, hg⟩
    obtain ⟨tail, hscans, htail⟩ := hreached.exists_scans hls
    cases hscans with
    | cons hread _ =>
      cases hread.symm.trans (readOne_of_item hg rfl)
      exact htail ⟨_, .head _, _, rfl, rfl⟩
  · intro hvariable
    obtain ⟨scanned, hscans, rfl⟩ := lexemes_eq_ok_iff.1 hls
    exact Reached.text.readsVariable hscans (haveVariable_multiply.1 hvariable)

/-- An expression is not constant exactly if the variable occurs in an operand of its formula. -/
theorem isConstant_eq_false_iff {e : Expression} (h : f.build = .ok e) :
    ∃ ls, f.lexemes = .ok ls ∧ (e.isConstant = false ↔ HaveVariable ls) := by
  obtain ⟨ls, hls, hperm⟩ := operands_of_build h
  refine ⟨ls, hls, ?_⟩
  rw [e.isConstant_eq_all, hperm.all_eq, List.all_map, List.all_eq_false, haveVariable_iff_operands]
  simp [Atom.isChanging_fold]

/-- An expression is not constant exactly if an `x` is read as the variable when its formula is
read, and exactly if the variable stands in one of the operands, be it in the argument of a call in
the argument of a call. If it is constant, no two values of the variable make a difference to its
value, and all pixels of an image go to the same place, so that all entries of its map are the
same. -/
theorem isConstant_of_build {e : Expression} (h : f.build = .ok e) :
    (e.isConstant = false ↔ f.ReadsVariable) ∧
    (∃ ls, f.lexemes = .ok ls ∧ (e.isConstant = false ↔
      ∃ l ∈ ls, ∃ a, l.item = .operand a ∧ Atom.Within .free a)) ∧
    (e.isConstant = true → (∀ x y, e.evaluate x = e.evaluate y) ∧
      ∀ r : Raster, ∃ entry, r.remap e.evaluate = List.replicate (r.width * r.height) entry ∧
        ∀ indices, r.remap? e.evaluate = some indices →
          indices = Array.replicate (r.width * r.height) entry) := by
  obtain ⟨ls, hls, hconstant⟩ := isConstant_eq_false_iff h
  refine ⟨hconstant.trans (readsVariable_iff hls).symm, ⟨ls, hls, ?_⟩, ?_⟩
  · simp only [hconstant, HaveVariable, Atom.within_free_iff]
  · intro htrue
    obtain ⟨arena, -, rfl⟩ := Except.map_eq_ok_iff.1 h
    have hsame := Expression.evaluate_eq_of_isConstant
      (fun _ => Expression.made_of_mem_operands_ofNodes) htrue
    refine ⟨hsame, fun r => ⟨_, r.remap_const hsame .zero, fun indices hindices => ?_⟩⟩
    rw [Raster.eq_of_remap? hindices, r.remap_const hsame .zero, List.toArray_replicate]

/-- The `x` in `exp` is no variable, and the one in `sin(X)` is. -/
theorem isConstant_of_build_power :
    (∃ e, (Formula.mk "exp(2)" 1).build = .ok e ∧ ¬ (Formula.mk "exp(2)" 1).ReadsVariable ∧
      e.isConstant = true ∧ ∀ x y, e.evaluate x = e.evaluate y) ∧
    ∃ e, (Formula.mk "exp(2)+pow(2, sin(X))" 2).build = .ok e ∧ e.isConstant = false ∧
      (Formula.mk "exp(2)+pow(2, sin(X))" 2).ReadsVariable := by
  have hexp : (Formula.mk "exp(2)" 1).tree = .ok (.leaf (.unary .exp (.number ⟨2, 0⟩))) := by
    decide +kernel
  have hpower : (Formula.mk "exp(2)+pow(2, sin(X))" 2).tree =
      .ok (.branch .add (.leaf (.unary .exp (.number ⟨2, 0⟩)))
        (.leaf (.binary .pow (.number ⟨2, 0⟩) (.unary .sin .free)))) := by
    decide +kernel
  obtain ⟨hreads, -, hconstant⟩ := isConstant_of_build (build_of_tree hexp)
  have htrue : (Expression.ofTree (.leaf (.unary .exp (.number ⟨2, 0⟩)))).isConstant = true := by
    decide +kernel
  refine ⟨⟨_, build_of_tree hexp, ?_, htrue, (hconstant htrue).1⟩, _, build_of_tree hpower, ?_⟩
  · rw [← hreads, htrue]
    simp
  · have hfalse : (Expression.ofTree (.branch .add (.leaf (.unary .exp (.number ⟨2, 0⟩)))
        (.leaf (.binary .pow (.number ⟨2, 0⟩) (.unary .sin .free))))).isConstant = false := by
      decide +kernel
    exact ⟨hfalse, (isConstant_of_build (build_of_tree hpower)).1.1 hfalse⟩

end Formula

end ComplexFormula
