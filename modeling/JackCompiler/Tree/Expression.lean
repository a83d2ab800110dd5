import JackCompiler.Text.Span
import JackCompiler.Tree.Operator

/-!
# Trees of expressions

Binary operators have no precedence, so an expression is a row of operands with an operator between
each two neighbours. Its tree is the row read from the left: either a single operand, or an operand,
an operator and the rest of the row. An operand is a term with unary operators before it.

## Implementation notes

The unary operators of an operand stand in source order, so the first of them is the outermost.
Names and string constants keep their place in the source, for messages about them.
-/

namespace JackCompiler

/-- A name as written at one place of a source. -/
structure Name where
  text : String
  span : Span
deriving DecidableEq, Repr

/-- A constant written as a reserved word. -/
inductive WordConstant where
  | true | false | null | this
deriving DecidableEq, Repr

mutual

/-- A row of operands: one alone, or one with the operator and the row that follow it. -/
inductive Expr where
  | operand (unary : List UnaryOp) (term : Term)
  | binary (unary : List UnaryOp) (term : Term) (op : BinaryOp) (rest : Expr)

/-- A value without unary operators. A string constant has its contents without the quotes and the
span of the whole constant. -/
inductive Term where
  | integer (value : UInt16)
  | text (contents : String) (span : Span)
  | word (constant : WordConstant)
  | variable (name : Name)
  | element (array : Name) (index : Expr)
  | call (call : Call)
  | paren (inner : Expr)

/-- A call of a subroutine, with the variable or class before the dot if there is one. -/
inductive Call where
  | mk (receiver : Option Name) (name : Name) (args : List Expr)

end

/-- Put an operand and an operator before a row of operands. -/
def Expr.ofRow (unary : List UnaryOp) (term : Term) :
    List (BinaryOp × List UnaryOp × Term) → Expr
  | [] => .operand unary term
  | (op, unary', term') :: rest => .binary unary term op (Expr.ofRow unary' term' rest)

/-- The unary operators before the first operand. -/
def Expr.headUnary : Expr → List UnaryOp
  | .operand unary _ => unary
  | .binary unary _ _ _ => unary

/-- The term of the first operand. -/
def Expr.headTerm : Expr → Term
  | .operand _ term => term
  | .binary _ term _ _ => term

end JackCompiler
