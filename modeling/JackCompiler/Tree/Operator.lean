import JackCompiler.Token.Symbol

/-!
# Operators of expressions
-/

namespace JackCompiler

/-- An operator between two operands. -/
inductive BinaryOp where
  | add | sub | mul | div | and | or | lt | gt | eq
deriving DecidableEq, Repr

/-- An operator before its operand: arithmetic negation or bitwise complement. -/
inductive UnaryOp where
  | neg | not
deriving DecidableEq, Repr

/-- The symbol of a binary operator. -/
def BinaryOp.symbol : BinaryOp → Symbol
  | add => .plus
  | sub => .minus
  | mul => .star
  | div => .slash
  | and => .ampersand
  | or => .pipe
  | lt => .less
  | gt => .greater
  | eq => .equals

/-- The symbol of a unary operator. -/
def UnaryOp.symbol : UnaryOp → Symbol
  | neg => .minus
  | not => .tilde

/-- The binary operator that a symbol writes. -/
def BinaryOp.ofSymbol? : Symbol → Option BinaryOp
  | .plus => some add
  | .minus => some sub
  | .star => some mul
  | .slash => some div
  | .ampersand => some and
  | .pipe => some or
  | .less => some lt
  | .greater => some gt
  | .equals => some eq
  | _ => none

/-- The unary operator that a symbol writes. -/
def UnaryOp.ofSymbol? : Symbol → Option UnaryOp
  | .minus => some neg
  | .tilde => some not
  | _ => none

theorem BinaryOp.ofSymbol?_eq_some_iff {s : Symbol} {op : BinaryOp} :
    BinaryOp.ofSymbol? s = some op ↔ op.symbol = s := by
  cases s <;> cases op <;> decide

theorem UnaryOp.ofSymbol?_eq_some_iff {s : Symbol} {op : UnaryOp} :
    UnaryOp.ofSymbol? s = some op ↔ op.symbol = s := by
  cases s <;> cases op <;> decide

end JackCompiler
