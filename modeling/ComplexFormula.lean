import ComplexFormula.Formula
import ComplexFormula.Proofs.Acceptance
import ComplexFormula.Proofs.Agreement
import ComplexFormula.Proofs.Bracketing
import ComplexFormula.Proofs.Composition
import ComplexFormula.Proofs.Coverage
import ComplexFormula.Proofs.Embedding
import ComplexFormula.Proofs.Evaluation
import ComplexFormula.Proofs.Explicit
import ComplexFormula.Proofs.Grouping
import ComplexFormula.Proofs.Guarded.Run
import ComplexFormula.Proofs.Juxtaposition
import ComplexFormula.Proofs.Leaves
import ComplexFormula.Proofs.Levels
import ComplexFormula.Proofs.Negation
import ComplexFormula.Proofs.Nesting
import ComplexFormula.Proofs.Pointing
import ComplexFormula.Proofs.Portability
import ComplexFormula.Proofs.Precedence
import ComplexFormula.Proofs.Printing
import ComplexFormula.Proofs.Recognition
import ComplexFormula.Proofs.Reordering
import ComplexFormula.Proofs.RowMajor
import ComplexFormula.Proofs.Signs
import ComplexFormula.Proofs.Spelling
import ComplexFormula.Proofs.Transparency
import ComplexFormula.Proofs.Traversal
import ComplexFormula.Proofs.Unjoined
import ComplexFormula.Raster
import ComplexFormula.Proofs.Constancy
import ComplexFormula.Proofs.Arguments
import ComplexFormula.Proofs.Noted.Build
import ComplexFormula.Proofs.Blame
import ComplexFormula.Proofs.Powers
import ComplexFormula.Proofs.Reflection
import ComplexFormula.Proofs.Reflexivity
