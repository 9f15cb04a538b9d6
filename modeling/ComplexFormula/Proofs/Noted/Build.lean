import ComplexFormula.Proofs.Guarded.Arena
import ComplexFormula.Proofs.Noted.Reading

/-!
Each call is run just once if it is constant, and once on each evaluation if it is not. The runs are
noted all the way: while the text is read, while its nodes are laid out, and while they are
evaluated.
-/

namespace ComplexFormula

open Builtin (Run Runner)

variable {σ : Type} {note : σ → Run → σ}

/-- What is done with the operands at the nodes of a list. -/
theorem Node.noted_mapM {α β γ : Type} {k : α → β} {f : β → StateM σ γ} {g : α → γ}
    {runs : α → List Run} (h : ∀ a, Noted note (f (k a)) (g a) (runs a)) (nodes : List (Node α)) :
    Noted note ((nodes.map (map k)).mapM (Node.mapM f)) (nodes.map (map g))
      ((operands nodes).flatMap runs) := by
  have hnode (node : Node α) : Noted note (Node.mapM f (node.map k)) (node.map g)
      ((node.operand?.map runs).getD []) := by
    cases node with
    | leaf a => exact (h a).map leaf
    | branch o l r => exact .pure _
  have hruns : (operands nodes).flatMap runs =
      nodes.flatMap fun node => (node.operand?.map runs).getD [] := by
    induction nodes with
    | nil => rfl
    | cons node nodes ih =>
      cases node with
      | leaf a => exact congrArg (runs a ++ ·) ih
      | branch o l r => exact ih
  rw [hruns, List.mapM_map]
  exact .mapM fun node _ => hnode node

namespace Expression

/-- Making the operands at some nodes ready runs the constant calls in them. -/
theorem noted_ofNodesM (nodes : List (Node Atom)) :
    Noted note (ofNodesM (.noting note) nodes) (ofNodes nodes)
      (Call.constantRuns ((Node.operands nodes).flatMap Atom.calls)) := by
  have hid : (Node.map id : Node Atom → Node Atom) = id := by
    funext node
    cases node <;> rfl
  have hready : Noted note ((nodes.map (Node.map id)).mapM (Node.mapM (Atom.foldM (.noting note))))
      _ _ := Node.noted_mapM (fun a => a.noted_foldM) nodes
  rw [hid, List.map_id, ← nodes_ofNodes] at hready
  rw [Call.constantRuns_flatMap, ← List.append_nil (List.flatMap ..)]
  exact hready.bind (.pure _)

/-- Evaluating a tree runs the changing calls in its operands. -/
theorem noted_evaluateM (t : Tree Atom) (x : ComplexFloat) :
    Noted note ((ofTree t).evaluateM (.noting note) x) (some ((ofTree t).evaluate x))
      (Call.changingRuns x ((Node.operands (Layout.ofTree t)).flatMap Atom.calls)) := by
  have hvalues : Noted note (((Layout.ofTree t).map (Node.map Atom.fold)).mapM
      (Node.mapM (Operand.evaluateM (.noting note) x))) _ _ :=
    Node.noted_mapM (fun a => a.noted_evaluateM x) (Layout.ofTree t)
  have hroot : Layout.rootValue? Operator.apply ((Layout.ofTree t).map
      (Node.map (Atom.evaluate x))) = some ((ofTree t).evaluate x) := by
    have hslot := slots_of_unfolds (x := x) (unfolds_ofTree t) (Nat.le_refl 0)
    have hnodes : (ofTree t).nodes.map (Node.map (Operand.evaluate x)) =
        (Layout.ofTree t).map (Node.map (Atom.evaluate x)) := by
      rw [ofTree, nodes_ofNodes, List.map_map]
      congr 1
      funext node
      cases node with
      | leaf a => exact congrArg Node.leaf (a.evaluate_fold x)
      | branch o l r => rfl
    rw [evaluate_eq_slots, hslot]
    rw [slots, hnodes] at hslot
    exact congrArg Option.join hslot
  rw [← nodes_ofNodes] at hvalues
  rw [Call.changingRuns_flatMap, ← hroot, ← List.append_nil (List.flatMap ..)]
  exact hvalues.bind (.pure _)

end Expression

namespace Formula

/-- The expression of the formula, with each run noted in the monad `m`. Constant calls are run
while the text is read. -/
def buildM {m : Type → Type} [Monad m] (run : Runner m) (f : Formula) :
    ExceptT ParseError m Expression := do
  let lexemes ← ReadyLexeme.read run f.depthLimit f.depthLimit (glyphs f.text)
  let terms ← Postfix.ofTokens f.depthLimit lexemes
  let arena ← Arena.ofPostfix terms
  pure ⟨arena.breadthFirst⟩

/-- From lexemes whose operands are ready comes the expression that comes from the lexemes. -/
theorem build_of_ready (limit : Nat) (ls : List Lexeme) :
    (Postfix.ofTokens limit (ls.map Lexeme.ready) >>= fun terms =>
      (fun arena => (⟨arena.breadthFirst⟩ : Expression)) <$> Arena.ofPostfix terms) =
    (Expression.ofNodes ·.breadthFirst) <$> (Postfix.ofTokens limit ls >>= Arena.ofPostfix) := by
  have hterms : Postfix.ofTokens limit (ls.map Lexeme.ready) =
      List.map (Spanned.map (Term.map Atom.fold)) <$> Postfix.ofTokens limit ls :=
    Postfix.arrange_map Atom.fold limit [] [] ls
  rw [hterms]
  cases Postfix.ofTokens limit ls with
  | error e => rfl
  | ok terms =>
    have htree : Tree.ofPostfix (terms.map (Spanned.map (Term.map Atom.fold))) =
        Tree.map Atom.fold <$> Tree.ofPostfix terms := Tree.build_map Atom.fold [] terms
    simp only [Except.map_ok, Except.ok_bind, Arena.ofPostfix_eq, htree]
    cases Tree.ofPostfix terms with
    | error e => rfl
    | ok t =>
      have hnodes : Layout.ofTree (t.map Atom.fold) = (Layout.ofTree t).map (Node.map Atom.fold) :=
        Layout.breadthFirst_map Atom.fold 1 [t]
      simp only [Except.map_ok, Arena.breadthFirst_ofTree, hnodes]
      rw [← Expression.nodes_ofNodes]

/-- The calls in the operands of the formula, to any depth, in the order in which they are read. -/
def calls (f : Formula) : List Call :=
  match f.lexemes with
  | .ok ls => Lexeme.calls ls
  | .error _ => []

/-- Noting runs changes nothing in what is built. What is noted are the runs of constant calls. -/
theorem reads_buildM (f : Formula) :
    Reads note Eq (fun _ => Call.constantRuns f.calls) (f.buildM (.noting note)) f.build := by
  have hbuild : f.build = f.lexemes >>= fun ls =>
      (Expression.ofNodes ·.breadthFirst) <$>
        (Postfix.ofTokens f.depthLimit ls >>= Arena.ofPostfix) := by
    rw [build, arena, terms]
    cases f.lexemes <;> rfl
  rw [hbuild]
  refine (ReadyLexeme.follows_read f.depthLimit f.depthLimit (glyphs f.text)).bind
    (fun _ _ => []) ?_ ?_
  · rintro ls _ - rfl
    rw [← build_of_ready]
    cases Postfix.ofTokens f.depthLimit (ls.map Lexeme.ready) with
    | error e => exact .error e
    | ok terms =>
      change Reads note Eq _ (do
        let arena ← (liftM (Arena.ofPostfix terms) : ExceptT ParseError (StateM σ) _)
        pure (⟨arena.breadthFirst⟩ : Expression)) _
      rw [Except.ok_bind]
      cases Arena.ofPostfix terms with
      | error e => exact .error e
      | ok arena => exact .ok rfl rfl
  · intro ls _ hls _
    have hlexemes : f.lexemes = .ok ls := hls
    rw [calls, hlexemes, List.append_nil]

/-- The operands of the nodes of a formula are those of its lexemes, so they have its calls. -/
theorem calls_perm {f : Formula} {t : Tree Atom} (h : f.tree = .ok t) :
    ((Node.operands (Layout.ofTree t)).flatMap Atom.calls).Perm f.calls := by
  obtain ⟨ls, hls, horder⟩ := tree_eq_ok_iff.1 h
  have hoperands := Layout.operands_breadthFirst_perm 1 [t]
  rw [List.flatMap_singleton, ← t.operands_postorder,
    Postfix.operands_of_order? horder] at hoperands
  rw [calls, hls]
  exact hoperands.flatMap_right _

/-- Building a formula runs each call in it without the variable just once, be it at the top or in
the arguments of other calls, and it does not matter whether this happens while the text is read or
when the nodes are laid out. Each evaluation runs just once each call with the variable, and none of
the others again. -/
theorem runs_of_build {f : Formula} {e : Expression} (h : f.build = .ok e) :
    (∀ n, (f.buildM .counting).run.run n = (.ok e, n + f.calls.countP (!·.hasVariable))) ∧
    (∀ a, f.arena = .ok a → ∀ n, (Expression.ofNodesM .counting a.breadthFirst).run n =
      (e, n + f.calls.countP (!·.hasVariable))) ∧
    (∀ (xs : List ComplexFloat) n, (xs.mapM fun x => e.evaluateM .counting x).run n =
      (xs.map fun x => some (e.evaluate x), n + xs.length * f.calls.countP (·.hasVariable))) ∧
    (∀ done, (f.buildM .recording).run.run done =
      (.ok e, done ++ Call.constantRuns f.calls)) ∧
    ∀ x, ∃ runs, runs.Perm (Call.changingRuns x f.calls) ∧
      ∀ done, (e.evaluateM .recording x).run done = (some (e.evaluate x), done ++ runs) := by
  have hread {σ : Type} (note : σ → Run → σ) :
      Noted note (f.buildM (.noting note)).run (.ok e) (Call.constantRuns f.calls) := by
    obtain ⟨_, rfl, hnoted⟩ := f.reads_buildM.read h
    exact hnoted
  have htree := h
  rw [build_eq] at htree
  obtain ⟨t, ht, rfl⟩ := Except.map_eq_ok_iff.1 htree
  have hperm := calls_perm ht
  refine ⟨?_, ?_, ?_, fun done => (hread _).recording done, ?_⟩
  · intro n
    rw [← Call.length_constantRuns]
    exact (hread _).counting n
  · intro a ha n
    have harena : f.arena = .ok (Arena.ofTree t) := by
      rw [arena_eq, ht, Except.map_ok]
    cases ha.symm.trans harena
    rw [Arena.breadthFirst_ofTree, ← hperm.countP_eq, ← Call.length_constantRuns]
    exact (Expression.noted_ofNodesM (Layout.ofTree t)).counting n
  · intro xs n
    have hall : Noted (fun count _ => count + 1)
        (xs.mapM fun x => (Expression.ofTree t).evaluateM .counting x) _ _ :=
      .mapM fun x _ => Expression.noted_evaluateM t x
    have hcount := hall.counting n
    simp only [List.length_flatMap, Call.length_changingRuns, hperm.countP_eq, List.map_const',
      List.sum_replicate_nat] at hcount
    exact hcount
  · intro x
    exact ⟨_, (hperm.filter _).map _, (Expression.noted_evaluateM t x).recording⟩

/-- In `pow(sin(i), cos(x)) + exp(ln(2))` three calls are run when it is built, and two at each of
two points. -/
theorem runs_of_build_power :
    ∃ e, (Formula.mk "pow(sin(i), cos(x)) + exp(ln(2))" 2).build = .ok e ∧
      (∀ n, ((Formula.mk "pow(sin(i), cos(x)) + exp(ln(2))" 2).buildM .counting).run.run n =
        (.ok e, n + 3)) ∧
      ∀ n, ([.zero, .imaginaryUnit].mapM fun x => e.evaluateM .counting x).run n =
        ([some (e.evaluate .zero), some (e.evaluate .imaginaryUnit)], n + 4) := by
  have htree : (Formula.mk "pow(sin(i), cos(x)) + exp(ln(2))" 2).tree =
      .ok (.branch .add
        (.leaf (.binary .pow (.unary .sin (.number .imaginaryUnit)) (.unary .cos .free)))
        (.leaf (.unary .exp (.unary .ln (.number ⟨2, 0⟩))))) := by
    decide +kernel
  have hconstant : (Formula.mk "pow(sin(i), cos(x)) + exp(ln(2))" 2).calls.countP
      (!·.hasVariable) = 3 := by
    decide +kernel
  have hchanging : (Formula.mk "pow(sin(i), cos(x)) + exp(ln(2))" 2).calls.countP
      (·.hasVariable) = 2 := by
    decide +kernel
  obtain ⟨hbuild, -, hevaluate, -⟩ := runs_of_build (build_of_tree htree)
  rw [hconstant] at hbuild
  refine ⟨_, build_of_tree htree, hbuild, ?_⟩
  intro n
  have htwo := hevaluate [.zero, .imaginaryUnit] n
  rw [hchanging] at htwo
  exact htwo

end Formula

end ComplexFormula
