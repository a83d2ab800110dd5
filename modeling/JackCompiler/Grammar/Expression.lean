import JackCompiler.Grammar.Repetition

/-!
# The grammar of expressions

Each production reads one kind of tree from the current token on and leaves the window just past its
last token.

## Implementation notes

Expressions nest only through terms: in parentheses, as an index and as arguments. The productions
up to an expression are therefore written over the production that reads an inner one, and
`exprWithin` ties the knot for a bounded depth. Every level of depth takes a token, so the tokens
still to come bound the depth.
-/

namespace JackCompiler

variable {S : Type} [TokenFeed S]

/-- Read a name. -/
def name : ProductionOver S Name := do
  let token ← take .identifier
  return ⟨token.text, token.span⟩

/-- The value of decimal digits, leading zeros allowed, if it is a constant of the machine. -/
def constantOfDigits? (digits : String) : Option UInt16 :=
  let value := digits.toList.foldl (fun n c => 10 * n + (c.toNat - '0'.toNat)) 0
  if value ≤ maxConstant then some (UInt16.ofNat value) else none

/-- Read an integer constant, given its digits. -/
def integer (digits : String) : ProductionOver S Term := do
  match constantOfDigits? digits with
  | some value =>
      slide
      return .integer value
  | none => throw ⟨.grammar (.integerOutOfRange digits), (← get).current.span.start⟩

/-- Read a string constant, given its contents. -/
def textConstant (contents : String) : ProductionOver S Term := do
  let token ← take .text
  return .text contents token.span

/-- The constant that a reserved word writes. -/
def WordConstant.ofKeyword? : Keyword → Option WordConstant
  | .trueConst => some .true
  | .falseConst => some .false
  | .nullConst => some .null
  | .this => some .this
  | _ => none

/-- Read a call. After a dot the name read first was the receiver. -/
def call (expr : ProductionOver S Expr) : ProductionOver S Call := do
  let first ← name
  let _ ← accept (.symbol .dot)
  if (← get).afterDot then
    let method ← name
    let args ← parenthesised expr
    return .mk (some first) method args
  else
    let args ← parenthesised expr
    return .mk none first args

/-- Read an element of an array. -/
def element (expr : ProductionOver S Expr) : ProductionOver S Term := do
  let array ← name
  let _ ← take (.symbol .leftBracket)
  let index ← expr
  let _ ← take (.symbol .rightBracket)
  return .element array index

/-- Read a term that begins with a name: what follows the name tells what it is. -/
def named (expr : ProductionOver S Expr) : ProductionOver S Term := do
  match (← get).lookahead.kind with
  | .symbol .leftBracket => element expr
  | .symbol .leftParen => .call <$> call expr
  | .symbol .dot => .call <$> call expr
  | _ => .variable <$> name

/-- Read an expression between parentheses, for its own sake. -/
def parenExpr (expr : ProductionOver S Expr) : ProductionOver S Expr := do
  let _ ← take (.symbol .leftParen)
  let inner ← expr
  let _ ← take (.symbol .rightParen)
  return inner

/-- Read a term. -/
def term (expr : ProductionOver S Expr) : ProductionOver S Term := do
  let w ← get
  match w.current.kind with
  | .number => integer w.current.text
  | .text => textConstant (w.contents?.getD "")
  | .identifier => named expr
  | .symbol .leftParen => .paren <$> parenExpr expr
  | .keyword k =>
      match WordConstant.ofKeyword? k with
      | some constant =>
          slide
          return .word constant
      | none => expected "term"
  | _ => expected "term"

/-- Read one unary operator. -/
def unaryOp : ProductionOver S UnaryOp := do
  match (← get).unary? with
  | some op =>
      slide
      return op
  | none => expected "term"

/-- Read an operand: unary operators and a term. -/
def operand (expr : ProductionOver S Expr) : ProductionOver S (List UnaryOp × Term) := do
  let unary ← repeatWhile (fun w => w.unary?.isSome) unaryOp
  let t ← term expr
  return (unary, t)

/-- Read a binary operator and the operand after it. -/
def operation (expr : ProductionOver S Expr) : ProductionOver S (BinaryOp × List UnaryOp × Term) := do
  match (← get).binary? with
  | some op =>
      slide
      let right ← operand expr
      return (op, right)
  | none => expected "binary operator"

/-- Read an expression, given how to read the ones inside it. -/
def row (expr : ProductionOver S Expr) : ProductionOver S Expr := do
  let (unary, t) ← operand expr
  let rest ← repeatWhile (fun w => w.binary?.isSome) (operation expr)
  return Expr.ofRow unary t rest

/-- Read an expression of a bounded depth. -/
def exprWithin : Nat → ProductionOver S Expr
  | 0 => expected "term"
  | n + 1 => row (exprWithin n)

/-- Read an expression. -/
def expr : ProductionOver S Expr := do
  exprWithin ((← get).remaining + 1)

/-- Read the arguments of a call, between parentheses. -/
def arguments : ProductionOver S (List Expr) :=
  parenthesised expr

end JackCompiler
