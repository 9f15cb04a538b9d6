import ComplexFormula.Proofs.Composition
import ComplexFormula.Proofs.Limitation
import ComplexFormula.Proofs.Steps
import ComplexFormula.Proofs.Transparency
import Mathlib.Data.Nat.Find

/-!
How deep a formula nests decides which limits it can be built under. From the number on that is the
larger of how deep its parentheses and its calls nest, the limit makes no difference; under each
lower limit the formula is cut off.
-/

namespace ComplexFormula

/-- How many calls stand inside each other. -/
def Atom.callDepth : Atom → Nat
  | number _ => 0
  | free => 0
  | unary _ a => a.callDepth + 1
  | binary _ a b => max a.callDepth b.callDepth + 1

/-- The most calls that stand inside each other in an operand of the tokens. -/
def Token.callDepth : List (Token Atom) → Nat
  | [] => 0
  | .operand a :: rest => max a.callDepth (callDepth rest)
  | _ :: rest => callDepth rest

theorem Token.callDepth_le_iff {n : Nat} {ts : List (Token Atom)} :
    callDepth ts ≤ n ↔ ∀ a, .operand a ∈ ts → a.callDepth ≤ n := by
  fun_induction callDepth ts with
  | case1 => simp
  | case2 a rest ih =>
    rw [Nat.max_le, ih]
    simp
  | case3 t rest hoperand ih =>
    rw [ih]
    refine forall_congr' fun a => ?_
    rw [List.mem_cons, or_iff_right fun h => hoperand a h.symm]

/-- A call nests one level deeper than its arguments. -/
theorem Atom.callDepth_le_iff_of_call {name : String} {arguments : List Atom} {position : Position}
    {a : Atom} (h : call name arguments position = .ok a) (n : Nat) :
    a.callDepth ≤ n ↔ ∃ m, n = m + 1 ∧ ∀ b ∈ arguments, b.callDepth ≤ m := by
  cases n with
  | zero =>
    rcases Builtin.call_eq_ok_iff.1 h with ⟨f, b, -, -, rfl⟩ | ⟨f, b, c, -, -, rfl⟩ <;>
      simp [callDepth]
  | succ n =>
    rcases Builtin.call_eq_ok_iff.1 h with ⟨f, b, -, rfl, rfl⟩ | ⟨f, b, c, -, rfl, rfl⟩
    · simp [callDepth]
    · rw [callDepth, Nat.add_le_add_iff_right, Nat.max_le]
      simp

namespace Lexeme

variable {limit limit' levels levels' : Nat} {inner inner' : Option Reader} {before : Option Glyph}
  {g : Glyph} {gs rest : List Glyph} {r : Reading} {ls : List Lexeme}

/-- Calls nest no deeper than `n` in any of the lexemes. -/
def DepthAtMost (n : Nat) (ls : List Lexeme) : Prop :=
  ∀ l ∈ ls, ∀ a, l.item = .operand a → a.callDepth ≤ n

theorem depthAtMost_iff {n : Nat} :
    DepthAtMost n ls ↔ Token.callDepth (ls.map (·.item)) ≤ n := by
  simp only [Token.callDepth_le_iff, List.mem_map]
  exact ⟨fun h a ⟨l, hl, hitem⟩ => h l hl a hitem, fun h l hl a hitem => h a ⟨l, hl, hitem⟩⟩

theorem depthAtMost_append {n : Nat} {ms : List Lexeme} :
    DepthAtMost n (ls ++ ms) ↔ DepthAtMost n ls ∧ DepthAtMost n ms := by
  simp only [DepthAtMost, List.forall_mem_append]

theorem depthAtMost_singleton {n : Nat} {l : Lexeme} :
    DepthAtMost n [l] ↔ ∀ a, l.item = .operand a → a.callDepth ≤ n := by
  simp only [DepthAtMost, List.forall_mem_singleton]

/-- A `*` that is not written is no call. -/
theorem depthAtMost_multiply {n : Nat} : DepthAtMost n (multiply ls) ↔ DepthAtMost n ls := by
  have hfilter : (multiply ls).filter (·.item.operand?.isSome) =
      ls.filter (·.item.operand?.isSome) := filter_multiply fun _ => rfl
  have hmem {l : Lexeme} {a : Atom} (ha : l.item = .operand a) : l ∈ multiply ls ↔ l ∈ ls := by
    have hl : l.item.operand?.isSome = true := by simp [ha, Token.operand?]
    have hiff := congrArg (l ∈ ·) hfilter
    simpa [hl] using hiff
  exact ⟨fun h l hl a ha => h l ((hmem ha).2 hl) a ha, fun h l hl a ha => h l ((hmem ha).1 hl) a ha⟩

/-- Each argument of a call is read from some of its glyphs. -/
theorem exists_of_mem_of_mapM {reader : Reader} {name : String} {opening : Glyph}
    {arguments : List (List Glyph)} {atoms : List Atom}
    (h : arguments.mapM (readArgument reader name opening) = .ok atoms) {a : Atom}
    (ha : a ∈ atoms) :
    ∃ argument ∈ arguments, ∃ l, reader argument = .ok [l] ∧ l.item = .operand a := by
  induction arguments generalizing atoms with
  | nil =>
    cases h
    cases ha
  | cons argument arguments ih =>
    rw [List.mapM_cons] at h
    obtain ⟨b, hb, h⟩ := Except.bind_eq_ok_iff.1 h
    obtain ⟨bs, hbs, h⟩ := Except.bind_eq_ok_iff.1 h
    cases h
    rcases List.mem_cons.1 ha with rfl | ha
    · exact ⟨argument, .head _, readArgument_eq_ok_iff.1 hb⟩
    · obtain ⟨argument', hargument', hread⟩ := ih hbs ha
      exact ⟨argument', .tail _ hargument', hread⟩

/-- The same arguments are read by any reader that reads the same operands. -/
theorem mapM_readArgument_congr {reader reader' : Reader} {name : String} {opening : Glyph}
    {arguments : List (List Glyph)} {atoms : List Atom}
    (h : arguments.mapM (readArgument reader name opening) = .ok atoms)
    (hreader : ∀ argument l, reader argument = .ok [l] → (∃ a ∈ atoms, l.item = .operand a) →
      reader' argument = .ok [l]) :
    arguments.mapM (readArgument reader' name opening) = .ok atoms := by
  induction arguments generalizing atoms with
  | nil => exact h
  | cons argument arguments ih =>
    rw [List.mapM_cons] at h ⊢
    obtain ⟨a, ha, h⟩ := Except.bind_eq_ok_iff.1 h
    obtain ⟨as, has, h⟩ := Except.bind_eq_ok_iff.1 h
    cases h
    obtain ⟨l, hl, hitem⟩ := readArgument_eq_ok_iff.1 ha
    have ha' : readArgument reader' name opening argument = .ok a :=
      readArgument_eq_ok_iff.2 ⟨l, hreader argument l hl ⟨a, .head _, hitem⟩, hitem⟩
    have has' := ih has fun argument l hl ⟨b, hb, hitem⟩ =>
      hreader argument l hl ⟨b, .tail _ hb, hitem⟩
    rw [ha', has']
    rfl

/-- Arguments are read one level below `n`, and calls nest no deeper there than is left. -/
def InnerWithin (n : Nat) (inner : Option Reader) : Prop :=
  ∀ reader, inner = some reader →
    ∃ m, n = m + 1 ∧ ∀ gs ls, reader gs = .ok ls → DepthAtMost m ls

theorem depthAtMost_of_readOne {n : Nat} (hinner : InnerWithin n inner)
    (h : readOne limit inner before g rest = .ok r) : DepthAtMost n r.lexemes := by
  cases stepRead_of_readOne h with
  | literal _ _ h =>
    obtain ⟨z, stop, hr⟩ := lexemes_of_readLiteral h
    rw [hr, depthAtMost_singleton]
    rintro _ ⟨⟩
    exact Nat.zero_le n
  | free | imaginaryUnit =>
    refine depthAtMost_singleton.2 ?_
    rintro _ ⟨⟩
    exact Nat.zero_le n
  | opening | closing | operator => exact depthAtMost_singleton.2 nofun
  | negation => simp [DepthAtMost, Spanned.map, Atom.callDepth]
  | call _ h =>
    obtain ⟨_, _, reader, _, atoms, a, -, -, hreader, -, hatoms, ha, rfl⟩ :=
      readCall_eq_ok_iff.1 h
    obtain ⟨m, rfl, hm⟩ := hinner reader hreader
    rw [depthAtMost_singleton]
    rintro _ ⟨⟩
    refine (Atom.callDepth_le_iff_of_call ha _).2 ⟨m, rfl, ?_⟩
    intro b hb
    obtain ⟨argument, -, l, hl, hitem⟩ := exists_of_mem_of_mapM hatoms hb
    exact hm argument [l] hl l (.head _) b hitem

theorem Scans.depthAtMost {n : Nat} (hinner : InnerWithin n inner)
    (h : Scans limit inner before gs ls) : DepthAtMost n ls := by
  induction h with
  | nil => nofun
  | cons h _ ih => exact depthAtMost_append.2 ⟨depthAtMost_of_readOne hinner h, ih⟩

/-- Calls nest no deeper than there are levels to read them in. -/
theorem depthAtMost_of_read (h : read limit levels gs = .ok ls) : DepthAtMost levels ls := by
  induction levels generalizing gs ls with
  | zero =>
    obtain ⟨scanned, hscans, rfl⟩ := read_eq_ok_iff.1 h
    have hinner : InnerWithin 0 (innerReader limit 0) := nofun
    exact depthAtMost_multiply.2 (hscans.depthAtMost hinner)
  | succ levels ih =>
    obtain ⟨scanned, hscans, rfl⟩ := read_eq_ok_iff.1 h
    have hinner : InnerWithin (levels + 1) (innerReader limit (levels + 1)) := by
      rintro _ ⟨⟩
      exact ⟨levels, rfl, fun _ _ => ih⟩
    exact depthAtMost_multiply.2 (hscans.depthAtMost hinner)

/-- Where calls may nest one level deep or more, the second reader reads what the first one does, as
far as calls nest no deeper there than is left. -/
def InnerWithinRefines (n : Nat) (inner inner' : Option Reader) : Prop :=
  ∀ reader, inner = some reader → ∀ m, n = m + 1 → ∃ reader', inner' = some reader' ∧
    ∀ gs ls, reader gs = .ok ls → DepthAtMost m ls → reader' gs = .ok ls

theorem readOne_of_depthAtMost {n : Nat} (hinner : InnerWithinRefines n inner inner')
    (h : readOne limit inner before g rest = .ok r) (hdepth : DepthAtMost n r.lexemes) :
    readOne limit' inner' before g rest = .ok r := by
  by_cases hclass : g.charClass = .letter
  · rw [readOne_of_letter hclass] at h ⊢
    obtain ⟨opening, inside, reader, arguments, atoms, a, hinside, hopening, hreader, harguments,
      hatoms, ha, rfl⟩ := readCall_eq_ok_iff.1 h
    have hcall := depthAtMost_singleton.1 hdepth a rfl
    obtain ⟨m, rfl, hm⟩ := (Atom.callDepth_le_iff_of_call ha n).1 hcall
    obtain ⟨reader', hreader', hrefines⟩ := hinner reader hreader m rfl
    refine readCall_eq_ok_iff.2 ⟨opening, inside, reader', arguments, atoms, a, hinside, hopening,
      hreader', harguments, mapM_readArgument_congr hatoms ?_, ha, rfl⟩
    rintro argument l hl ⟨b, hb, hitem⟩
    refine hrefines argument [l] hl (depthAtMost_singleton.2 ?_)
    intro c hc
    obtain rfl : b = c := by simpa [hitem] using hc
    exact hm b hb
  · rw [← h]
    exact readOne_congr hclass

theorem Scans.of_depthAtMost {n : Nat} (hinner : InnerWithinRefines n inner inner')
    (h : Scans limit inner before gs ls) (hdepth : DepthAtMost n ls) :
    Scans limit' inner' before gs ls := by
  induction h with
  | nil before => exact .nil before
  | cons h _ ih =>
    obtain ⟨hread, htail⟩ := depthAtMost_append.1 hdepth
    exact .cons (readOne_of_depthAtMost hinner h hread) (ih htail)

/-- As many levels as calls nest deep are enough to read them. -/
theorem read_of_depthAtMost (h : read limit levels gs = .ok ls) (hdepth : DepthAtMost levels' ls) :
    read limit' levels' gs = .ok ls := by
  induction levels' generalizing levels gs ls with
  | zero =>
    obtain ⟨scanned, hscans, rfl⟩ := read_eq_ok_iff.1 h
    have hinner : InnerWithinRefines 0 (innerReader limit levels) (innerReader limit' 0) := nofun
    exact read_eq_ok_iff.2
      ⟨scanned, hscans.of_depthAtMost hinner (depthAtMost_multiply.1 hdepth), rfl⟩
  | succ levels' ih =>
    obtain ⟨scanned, hscans, rfl⟩ := read_eq_ok_iff.1 h
    have hinner : InnerWithinRefines (levels' + 1) (innerReader limit levels)
        (innerReader limit' (levels' + 1)) := by
      rintro reader hreader m ⟨⟩
      cases levels with
      | zero => cases hreader
      | succ levels =>
        cases hreader
        exact ⟨_, rfl, fun _ _ hread hdepth => ih hread hdepth⟩
    exact read_eq_ok_iff.2
      ⟨scanned, hscans.of_depthAtMost hinner (depthAtMost_multiply.1 hdepth), rfl⟩

end Lexeme

/-! ### The threshold -/

/-- The operands of what is laid out are those of the trees in the queue. -/
theorem Layout.exists_mem_of_mem_breadthFirst {α : Type} {a : α} {next : Nat}
    {queue : List (Tree α)} (h : .leaf a ∈ breadthFirst next queue) :
    ∃ t ∈ queue, .operand a ∈ t.postorder := by
  fun_induction breadthFirst next queue with
  | case1 => cases h
  | case2 next b queue ih =>
    rcases List.mem_cons.1 h with h | h
    · cases h
      exact ⟨.leaf a, .head _, .head _⟩
    · obtain ⟨t, ht, ha⟩ := ih h
      exact ⟨t, .tail _ ht, ha⟩
  | case3 next o l r queue ih =>
    rcases List.mem_cons.1 h with h | h
    · cases h
    obtain ⟨t, ht, ha⟩ := ih h
    rcases List.mem_append.1 ht with ht | ht
    · exact ⟨t, .tail _ ht, ha⟩
    refine ⟨.branch o l r, .head _, ?_⟩
    simp only [List.mem_cons, List.not_mem_nil, or_false] at ht
    rcases ht with rfl | rfl <;> simp [Tree.postorder, ha]

/-- Each operand of an expression is made from one of the tree. -/
theorem Expression.exists_of_leaf_mem_ofTree {t : Tree Atom} {a : Operand}
    (h : .leaf a ∈ (ofTree t).nodes) : .operand a.toAtom ∈ t.postorder := by
  rw [ofTree, nodes_ofNodes] at h
  obtain ⟨node, hnode, hleaf⟩ := List.mem_map.1 h
  cases node with
  | branch o l r => cases hleaf
  | leaf b =>
    cases hleaf
    obtain ⟨s, hs, hb⟩ := Layout.exists_mem_of_mem_breadthFirst hnode
    obtain rfl := List.mem_singleton.1 hs
    rwa [b.toAtom_fold]

namespace Formula

variable {text : String} {d : Nat} {e : Expression} {ls : List Lexeme}

/-- How deep some lexemes nest: their parentheses, or the calls in them if these nest deeper. -/
def depth (ls : List Lexeme) : Nat :=
  max (Token.nesting (ls.map (·.item))) (Token.callDepth (ls.map (·.item)))

/-- A formula that builds nests no deeper than its limit. -/
theorem exists_depth_le_of_build (h : (Formula.mk text d).build = .ok e) :
    ∃ ls, (Formula.mk text d).lexemes = .ok ls ∧ depth ls ≤ d := by
  rw [build_eq] at h
  obtain ⟨t, ht, -⟩ := Except.map_eq_ok_iff.1 h
  obtain ⟨ls, hls, horder⟩ := tree_eq_ok_iff.1 ht
  have hnesting := Postfix.nestingFrom_le_of_order? (Nat.zero_le d) horder
  exact ⟨ls, hls, Nat.max_le.2
    ⟨hnesting, Lexeme.depthAtMost_iff.1 (Lexeme.depthAtMost_of_read hls)⟩⟩

/-- A formula is not cut off at a limit that it nests no deeper than. -/
theorem settled_of_depth_le {d' : Nat} (hls : (Formula.mk text d).lexemes = .ok ls)
    (hdepth : depth ls ≤ d') :
    Settled (Formula.mk text d').build := by
  obtain ⟨hnesting, hcalls⟩ := Nat.max_le.1 hdepth
  have hls' : (Formula.mk text d').lexemes = .ok ls :=
    Lexeme.read_of_depthAtMost hls (Lexeme.depthAtMost_iff.2 hcalls)
  rw [build_eq]
  refine Settled.map ?_ _
  refine Settled.bind ?_ fun _ _ => Tree.build_settled _ _
  rw [terms, hls']
  exact Postfix.arrange_settled hnesting

/-- No call in a tree nests deeper than the limit. -/
theorem callDepth_le_of_build (h : (Formula.mk text d).build = .ok e) {a : Operand}
    (ha : .leaf a ∈ e.nodes) : a.toAtom.callDepth ≤ d := by
  rw [build_eq] at h
  obtain ⟨t, ht, rfl⟩ := Except.map_eq_ok_iff.1 h
  have hleaf := Expression.exists_of_leaf_mem_ofTree ha
  obtain ⟨ls, hls, hmem⟩ := mem_lexemes_of_mem_postorder ht hleaf
  have hcalls := Lexeme.depthAtMost_iff.1 (Lexeme.depthAtMost_of_read hls)
  exact Token.callDepth_le_iff.1 hcalls _ hmem

/-- A text has one result, under every limit from some number on, and is cut off under each one
below. The number is how deep the text nests if the result is an expression. -/
theorem exists_threshold (text : String) :
    ∃ (threshold : Nat) (result : Except ParseError Expression),
    (∀ limit position, result ≠ .error ⟨.nestingTooDeep limit, position⟩) ∧
    (∀ d, threshold ≤ d → (Formula.mk text d).build = result) ∧
    (∀ d, d < threshold →
      ∃ p, (Formula.mk text d).build = .error ⟨.nestingTooDeep d, .offset p⟩) ∧
    (∀ e, result = .ok e → ∃ ls, (∀ d, threshold ≤ d → (Formula.mk text d).lexemes = .ok ls) ∧
      threshold =
        max (Token.nesting (ls.map (·.item))) (Token.callDepth (ls.map (·.item)))) ∧
    ∀ d e, (Formula.mk text d).build = .ok e →
      ∀ a, .leaf a ∈ e.nodes → a.toAtom.callDepth ≤ d := by
  classical
  have hexists := exists_settled text
  have hsettled := Nat.find_spec hexists
  refine ⟨Nat.find hexists, (Formula.mk text (Nat.find hexists)).build, hsettled, ?_, ?_, ?_, ?_⟩
  · exact fun d hd => ((build_limited hd).eq_of_settled hsettled).symm
  · intro d hd
    have hcut : Limited d (Formula.mk text d).build (Formula.mk text (Nat.find hexists)).build :=
      build_limited (Nat.le_of_lt hd)
    have hunsettled := Nat.find_min hexists hd
    generalize (Formula.mk text d).build = u at hcut hunsettled ⊢
    cases hcut with
    | cut p v => exact ⟨p, rfl⟩
    | whole => exact absurd hsettled hunsettled
  · intro e he
    obtain ⟨ls, hls, hdepth⟩ := exists_depth_le_of_build he
    have hminimal : Nat.find hexists ≤ depth ls :=
      Nat.find_min' hexists (settled_of_depth_le hls (Nat.le_refl _))
    refine ⟨ls, fun d hd => ?_, Nat.le_antisymm hminimal hdepth⟩
    have hcalls := Lexeme.depthAtMost_iff.2 (Nat.le_trans (Nat.le_max_right _ _) hdepth)
    exact Lexeme.read_of_depthAtMost hls
      fun l hl a ha => Nat.le_trans (hcalls l hl a ha) hd
  · exact fun d e he a ha => callDepth_le_of_build he ha

end Formula

end ComplexFormula
