import ComplexFormula.Layout
import ComplexFormula.Operand

/-!
An expression in the variable `x`, ready for evaluation at any number of points.
-/

namespace ComplexFormula

/-- The nodes of an expression, the root first. -/
structure Expression where
  nodes : List (Node Operand)
  deriving BEq, Repr

namespace Expression

variable {m : Type → Type} [Monad m]

/-- The expression of a list of nodes. Constant calls are run here, once and for all. -/
def ofNodesM (run : Builtin.Runner m) (nodes : List (Node Atom)) : m Expression := do
  let nodes ← nodes.mapM (Node.mapM (Atom.foldM run))
  pure ⟨nodes⟩

/-- The expression of a list of nodes. -/
def ofNodes (nodes : List (Node Atom)) : Expression :=
  Id.run (ofNodesM .plain nodes)

/-- The expression of a tree. -/
def ofTree (t : Tree Atom) : Expression :=
  ofNodes (Layout.ofTree t)

/-- Evaluation where the variable is `x`: the operands first, then the operators. There is no value
if the list holds no node or a branch names a place that has no value yet. -/
def evaluateM (run : Builtin.Runner m) (x : ComplexFloat) (e : Expression) :
    m (Option ComplexFloat) := do
  let nodes ← e.nodes.mapM (Node.mapM (Operand.evaluateM run x))
  pure (Layout.rootValue? Operator.apply nodes)

/-- The value of the expression where the variable is `x`. -/
def evaluate (e : Expression) (x : ComplexFloat) : ComplexFloat :=
  (Id.run (e.evaluateM .plain x)).getD .zero

/-- Whether the variable stands nowhere in the expression. -/
def isConstant (e : Expression) : Bool :=
  e.nodes.all fun
    | .leaf a => !a.isChanging
    | .branch _ _ _ => true

/-- The root. -/
def root? (e : Expression) : Option (Node Operand) :=
  e.nodes.head?

end Expression

end ComplexFormula
