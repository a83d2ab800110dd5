import JackCompiler.Tree.Expression

/-!
# Trees of statements
-/

namespace JackCompiler

/-- A statement. An assignment with an index sets an element of an array; a conditional may lack its
second branch, and a return its value. -/
inductive Stmt where
  | assign (target : Name) (index : Option Expr) (value : Expr)
  | branch (cond : Expr) (yes : List Stmt) (no : Option (List Stmt))
  | loop (cond : Expr) (body : List Stmt)
  | call (call : Call)
  | ret (value : Option Expr)

end JackCompiler
