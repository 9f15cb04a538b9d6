import ComplexFormula.Arena
import ComplexFormula.Expression
import ComplexFormula.Lexeme.Scan
import ComplexFormula.Postfix

/-!
A formula: a text in the variable `x`, and how deep its parentheses and calls may nest. Its lexemes,
its terms in postfix order, the arena of its nodes and its expression each follow from the one
before. The tree that the arena holds can also be had from the terms at once.
-/

namespace ComplexFormula

/-- A text that is to be read as an expression. -/
structure Formula where
  text : String
  depthLimit : Nat := 256
  deriving DecidableEq, Repr

namespace Formula

/-- The lexemes of the text. -/
def lexemes (f : Formula) : Except ParseError (List Lexeme) :=
  Lexeme.ofText f.depthLimit f.text

/-- The operands and operators of the text in postfix order. -/
def terms (f : Formula) : Except ParseError (List (Spanned (Term Atom))) :=
  f.lexemes >>= Postfix.ofTokens f.depthLimit

/-- The nodes of the formula in the order in which its terms make them. -/
def arena (f : Formula) : Except ParseError (Arena Atom) :=
  f.terms >>= Arena.ofPostfix

/-- The tree of the formula. -/
def tree (f : Formula) : Except ParseError (Tree Atom) :=
  f.terms >>= Tree.ofPostfix

/-- The expression of the formula, or the first error that reading it meets. -/
def build (f : Formula) : Except ParseError Expression :=
  (Expression.ofNodes ·.breadthFirst) <$> f.arena

end Formula

end ComplexFormula
