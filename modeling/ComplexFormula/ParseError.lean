/-!
Why a text is not a formula, and where that shows. A fault is a cause; its wording stands in
`Fault.text` alone, and an error closes the wording with its position.
-/

namespace ComplexFormula

/-- A place in a text, as a byte offset where there is one. -/
inductive Position
  | unknown
  | offset (bytes : Nat)
  deriving DecidableEq, Repr

namespace Position

instance : Inhabited Position := ⟨unknown⟩

/-- The byte offset of a known position. -/
def offset? : Position → Option Nat
  | unknown => none
  | offset bytes => some bytes

/-- Whether the position points into the text. -/
def isKnown (p : Position) : Bool :=
  p.offset?.isSome

/-- The wording of a position. -/
def text : Position → String
  | unknown => "unknown position"
  | offset bytes => "position " ++ bytes.repr

end Position

/-- What a call has too many or too few of. -/
inductive Counted
  | tokensPerArgument
  | arguments
  deriving DecidableEq, Repr

/-- The wording of what is counted. -/
def Counted.text : Counted → String
  | .tokensPerArgument => "token per argument"
  | .arguments => "arguments"

/-- The causes for which a text is refused. -/
inductive Fault
  /-- A character that no formula holds. -/
  | unexpectedCharacter (c : Char)
  /-- A run of digits and points that is no number. -/
  | malformedLiteral (literal : String)
  /-- A fault of spelling that the caller words. -/
  | unreadable (detail : String)
  /-- An argument list that is opened and never closed. -/
  | missingClosingBracket
  /-- A `)` with no `(` before it, or a `(` that is still open at the end. -/
  | unbalancedParentheses
  /-- A run of letters that names no function. -/
  | unknownFunction (name : String)
  /-- A call with the wrong number of arguments, or an argument that is not one token. -/
  | wrongCount (function : String) (counted : Counted) (expected found : Nat)
  /-- An operator with fewer than two operands, or no operand at all. -/
  | missingOperand
  /-- Two operands that nothing joins. -/
  | extraOperand
  /-- Parentheses or calls inside each other beyond the limit. -/
  | nestingTooDeep (limit : Nat)
  deriving DecidableEq, Repr

/-- The wording of a fault. -/
def Fault.text : Fault → String
  | unexpectedCharacter c => "unexpected character '" ++ c.toString ++ "'"
  | malformedLiteral literal => "malformed number literal '" ++ literal ++ "'"
  | unreadable detail => detail
  | missingClosingBracket => "missing closing bracket for '('"
  | unbalancedParentheses => "unbalanced parentheses"
  | unknownFunction name => "unknown function '" ++ name ++ "'"
  | wrongCount function counted expected found =>
    "'" ++ function ++ "' expects " ++ expected.repr ++ " " ++ counted.text ++ ", found "
      ++ found.repr
  | missingOperand => "missing operand"
  | extraOperand => "operand without operator"
  | nestingTooDeep limit => "nesting deeper than " ++ limit.repr ++ " levels"

/-- A fault and where it shows. -/
structure ParseError where
  fault : Fault
  position : Position
  deriving DecidableEq, Repr

/-- The wording of an error. -/
def ParseError.message (e : ParseError) : String :=
  e.fault.text ++ " at " ++ e.position.text

end ComplexFormula
