import ComplexFormula.Token
import ComplexFormula.Tree

/-!
The grammar of infix expressions: sums of products of powers of primaries, where a primary is an
operand or a sum in parentheses. Sums and products group to the left and powers to the right, and
each sentence comes with its tree.

    sum      →  product  |  sum (+|-) product
    product  →  power    |  product (*|/) power
    power    →  primary  |  primary ^ power
    primary  →  operand  |  ( sum )
-/

namespace ComplexFormula

variable {α : Type}

/-- The levels of the grammar, the loosest first. -/
inductive Level
  | sum
  | product
  | power
  | primary
  deriving DecidableEq

/-- How tightly an operator outside parentheses binds at least. -/
def Level.precedence : Level → Nat
  | sum => 2
  | product => 3
  | power => 4
  | primary => 5

/-- A run of tokens is a sentence of a level, and this is its tree. -/
inductive Derives : Level → List (Token α) → Tree α → Prop
  | operand (a : α) : Derives .primary [.operand a] (.leaf a)
  | group {ts : List (Token α)} {t : Tree α} (h : Derives .sum ts t) :
      Derives .primary (.opening :: (ts ++ [.closing])) t
  | primary {ts : List (Token α)} {t : Tree α} (h : Derives .primary ts t) : Derives .power ts t
  | pow {us vs : List (Token α)} {l r : Tree α} (hl : Derives .primary us l)
      (hr : Derives .power vs r) : Derives .power (us ++ .operator .pow :: vs) (.branch .pow l r)
  | power {ts : List (Token α)} {t : Tree α} (h : Derives .power ts t) : Derives .product ts t
  | mul {us vs : List (Token α)} {l r : Tree α} {o : Operator} (ho : o = .mul ∨ o = .div)
      (hl : Derives .product us l) (hr : Derives .power vs r) :
      Derives .product (us ++ .operator o :: vs) (.branch o l r)
  | product {ts : List (Token α)} {t : Tree α} (h : Derives .product ts t) : Derives .sum ts t
  | add {us vs : List (Token α)} {l r : Tree α} {o : Operator} (ho : o = .add ∨ o = .sub)
      (hl : Derives .sum us l) (hr : Derives .product vs r) :
      Derives .sum (us ++ .operator o :: vs) (.branch o l r)

/-! ### How deep parentheses nest -/

namespace Token

/-- The most parentheses that are open at once, if `depth` are open in front of the tokens. -/
def nestingFrom (depth : Nat) : List (Token α) → Nat
  | [] => depth
  | .opening :: rest => nestingFrom (depth + 1) rest
  | .closing :: rest => max depth (nestingFrom (depth - 1) rest)
  | _ :: rest => nestingFrom depth rest

@[simp] theorem nestingFrom_operand (depth : Nat) (a : α) (rest : List (Token α)) :
    nestingFrom depth (.operand a :: rest) = nestingFrom depth rest := rfl

@[simp] theorem nestingFrom_operator (depth : Nat) (o : Operator) (rest : List (Token α)) :
    nestingFrom depth (.operator o :: rest) = nestingFrom depth rest := rfl

/-- The most parentheses that are open at once. -/
def nesting (tokens : List (Token α)) : Nat :=
  nestingFrom 0 tokens

theorem le_nestingFrom (depth : Nat) (tokens : List (Token α)) :
    depth ≤ nestingFrom depth tokens := by
  fun_induction nestingFrom depth tokens with
  | case1 => exact Nat.le_refl _
  | case2 depth rest ih => omega
  | case3 depth rest ih => omega
  | case4 depth token rest _ _ ih => exact ih

end Token

/-- A sentence closes what it opens, so that it nests on its own and the rest on its own. -/
theorem Derives.nestingFrom_append {level : Level} {ts : List (Token α)} {t : Tree α}
    (h : Derives level ts t) (depth : Nat) (rest : List (Token α)) :
    Token.nestingFrom depth (ts ++ rest) =
      max (Token.nestingFrom depth ts) (Token.nestingFrom depth rest) := by
  induction h generalizing depth rest with
  | operand a =>
    have := Token.le_nestingFrom depth rest
    simp only [List.singleton_append, Token.nestingFrom_operand, Token.nestingFrom]
    omega
  | group h ih =>
    have := Token.le_nestingFrom depth rest
    simp only [List.cons_append, List.append_assoc, Token.nestingFrom, ih, List.nil_append]
    simp only [Nat.add_sub_cancel]
    omega
  | primary h ih => exact ih depth rest
  | power h ih => exact ih depth rest
  | product h ih => exact ih depth rest
  | pow hl hr ihl ihr | mul ho hl hr ihl ihr | add ho hl hr ihl ihr =>
    simp only [List.append_assoc, List.cons_append, Token.nestingFrom_operator, ihl, ihr]
    omega

end ComplexFormula
