import JackCompiler.Grammar.Expression

/-!
# The grammar of statements

A block ends before the first token that begins no statement; whoever reads the block decides
whether that token may stand there.

## Implementation notes

Statements nest only through braces, so their depth is bounded in the same way as that of
expressions.
-/

namespace JackCompiler

variable {S : Type} [TokenFeed S]

/-- Read statements for as long as the current token begins one. -/
def block (stmt : ProductionOver S Stmt) : ProductionOver S (List Stmt) :=
  repeatWhile (fun w => w.atKeyword Keyword.beginsStatement) stmt

/-- Read the brace that ends a block. -/
def blockEnd : ProductionOver S Unit := do
  if (← get).atSymbol .rightBrace then slide
  else expected ("statement or " ++ (Kind.symbol .rightBrace).description)

/-- Read a block between braces. -/
def braced (stmt : ProductionOver S Stmt) : ProductionOver S (List Stmt) := do
  let _ ← take (.symbol .leftBrace)
  let stmts ← block stmt
  blockEnd
  return stmts

/-- Read an assignment. -/
def assignment : ProductionOver S Stmt := do
  let _ ← take (.keyword .letStmt)
  let target ← name
  let index ←
    if ← accept (.symbol .leftBracket) then
      let index ← expr
      let _ ← take (.symbol .rightBracket)
      pure (some index)
    else
      pure none
  let _ ← take (.symbol .equals)
  let value ← expr
  let _ ← take (.symbol .semicolon)
  return .assign target index value

/-- Read a conditional. -/
def conditional (stmt : ProductionOver S Stmt) : ProductionOver S Stmt := do
  let _ ← take (.keyword .ifStmt)
  let cond ← parenExpr expr
  let yes ← braced stmt
  let no ← if ← accept (.keyword .elseBranch) then some <$> braced stmt else pure none
  return .branch cond yes no

/-- Read a loop. -/
def whileLoop (stmt : ProductionOver S Stmt) : ProductionOver S Stmt := do
  let _ ← take (.keyword .whileStmt)
  let cond ← parenExpr expr
  let body ← braced stmt
  return .loop cond body

/-- Read a call made for its effect. -/
def callStatement : ProductionOver S Stmt := do
  let _ ← take (.keyword .doStmt)
  let c ← call expr
  let _ ← take (.symbol .semicolon)
  return .call c

/-- Read a return. -/
def returnStatement : ProductionOver S Stmt := do
  let _ ← take (.keyword .returnStmt)
  let value ← if (← get).atSymbol .semicolon then pure none else some <$> expr
  let _ ← take (.symbol .semicolon)
  return .ret value

/-- Read a statement, given how to read the ones inside it. -/
def statementOver (stmt : ProductionOver S Stmt) : ProductionOver S Stmt := do
  match (← get).keyword? with
  | some .letStmt => assignment
  | some .ifStmt => conditional stmt
  | some .whileStmt => whileLoop stmt
  | some .doStmt => callStatement
  | some .returnStmt => returnStatement
  | _ => expected "statement"

/-- Read a statement of a bounded depth. -/
def statementWithin : Nat → ProductionOver S Stmt
  | 0 => expected "statement"
  | n + 1 => statementOver (statementWithin n)

/-- Read a statement. -/
def statement : ProductionOver S Stmt := do
  statementWithin ((← get).remaining + 1)

end JackCompiler
