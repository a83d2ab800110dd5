import JackCompiler.Grammar.Declaration
import Mathlib.Data.Nat.Digits.Defs

/-!
# The grammar of a class

The grammar says which lists of tokens form which trees. It is written as one derives by hand: a
derivation of a tree from a list of tokens puts the list together from the lists of its parts.

## Implementation notes

Nothing here mentions a window or an order of reading. A tree has a node for each use of a
production and lists the parts of it, so lists of tokens with only one tree have only one
derivation.
-/

namespace JackCompiler

/-! ## Parts of every production -/

section Parts

variable {α : Type} (P : List Token → α → Prop)

/-- Any number of items, one after the other. -/
inductive Repeated : List Token → List α → Prop
  | nil : Repeated [] []
  | cons {us vs : List Token} {a : α} {as : List α} :
      P us a → Repeated vs as → Repeated (us ++ vs) (a :: as)

/-- One item or more, with a comma between each two. -/
inductive Separated : List Token → List α → Prop
  | one {us : List Token} {a : α} : P us a → Separated us [a]
  | cons {us vs : List Token} {comma : Token} {a : α} {as : List α} :
      P us a → comma.kind = .symbol .comma → Separated vs as →
      Separated (us ++ comma :: vs) (a :: as)

/-- Items separated by commas between parentheses, possibly none. -/
inductive Parenthesised : List Token → List α → Prop
  | none {l r : Token} :
      l.kind = .symbol .leftParen → r.kind = .symbol .rightParen → Parenthesised [l, r] []
  | some {us : List Token} {l r : Token} {as : List α} :
      l.kind = .symbol .leftParen → Separated P us as → r.kind = .symbol .rightParen →
      Parenthesised (l :: (us ++ [r])) as

end Parts

/-- The name that a token writes. -/
def Token.toName (t : Token) : Name :=
  ⟨t.text, t.span⟩

/-- A name. -/
inductive IsName : List Token → Name → Prop
  | token {t : Token} : t.kind = .identifier → IsName [t] t.toName

/-! ## Expressions -/

/-- The value of decimal digits, most significant first. -/
def decimalValue (digits : String) : Nat :=
  Nat.ofDigits 10 (digits.toList.reverse.map fun c => c.toNat - '0'.toNat)

/-- The reserved word that writes a constant. -/
def WordConstant.keyword : WordConstant → Keyword
  | true => .trueConst
  | false => .falseConst
  | null => .nullConst
  | this => .this

/-- A unary operator. -/
inductive IsUnary : List Token → UnaryOp → Prop
  | token {t : Token} {op : UnaryOp} : t.kind = .symbol op.symbol → IsUnary [t] op

mutual

/-- An expression: operands with a binary operator between each two. -/
inductive IsExpr : List Token → Expr → Prop
  | row {us vs : List Token} {operand : List UnaryOp × Term}
      {rest : List (BinaryOp × List UnaryOp × Term)} :
      IsOperand us operand → Repeated IsOperation vs rest →
      IsExpr (us ++ vs) (.ofRow operand.1 operand.2 rest)

/-- A binary operator with the operand after it. -/
inductive IsOperation : List Token → BinaryOp × List UnaryOp × Term → Prop
  | binary {o : Token} {us : List Token} {op : BinaryOp} {operand : List UnaryOp × Term} :
      o.kind = .symbol op.symbol → IsOperand us operand → IsOperation (o :: us) (op, operand)

/-- An operand: a term with unary operators before it. -/
inductive IsOperand : List Token → List UnaryOp × Term → Prop
  | term {us vs : List Token} {unary : List UnaryOp} {t : Term} :
      Repeated IsUnary us unary → IsTerm vs t → IsOperand (us ++ vs) (unary, t)

/-- A term. The value of an integer has to be a constant of the machine, and leading zeros do not
count. -/
inductive IsTerm : List Token → Term → Prop
  | integer {t : Token} {value : UInt16} :
      t.kind = .number → decimalValue t.text = value.toNat → value.toNat ≤ maxConstant →
      IsTerm [t] (.integer value)
  | text {t : Token} {contents : String} :
      t.kind = .text → t.text = "\"" ++ contents ++ "\"" → IsTerm [t] (.text contents t.span)
  | word {t : Token} {constant : WordConstant} :
      t.kind = .keyword constant.keyword → IsTerm [t] (.word constant)
  | name {us : List Token} {n : Name} : IsName us n → IsTerm us (.variable n)
  | element {us vs : List Token} {l r : Token} {array : Name} {index : Expr} :
      IsName us array → l.kind = .symbol .leftBracket → IsExpr vs index →
      r.kind = .symbol .rightBracket → IsTerm (us ++ l :: (vs ++ [r])) (.element array index)
  | call {us : List Token} {c : Call} : IsCall us c → IsTerm us (.call c)
  | paren {us : List Token} {l r : Token} {inner : Expr} :
      l.kind = .symbol .leftParen → IsExpr us inner → r.kind = .symbol .rightParen →
      IsTerm (l :: (us ++ [r])) (.paren inner)

/-- A call, with or without a receiver. -/
inductive IsCall : List Token → Call → Prop
  | plain {us vs : List Token} {n : Name} {args : List Expr} :
      IsName us n → Parenthesised IsExpr vs args → IsCall (us ++ vs) (.mk none n args)
  | qualified {us vs ws : List Token} {dot : Token} {receiver n : Name} {args : List Expr} :
      IsName us receiver → dot.kind = .symbol .dot → IsName vs n → Parenthesised IsExpr ws args →
      IsCall (us ++ dot :: (vs ++ ws)) (.mk (some receiver) n args)

end

/-! ## Statements -/

/-- A condition: an expression between parentheses. -/
inductive IsCondition : List Token → Expr → Prop
  | parens {us : List Token} {l r : Token} {cond : Expr} :
      l.kind = .symbol .leftParen → IsExpr us cond → r.kind = .symbol .rightParen →
      IsCondition (l :: (us ++ [r])) cond

/-- Items between braces. -/
inductive Braced {α : Type} (P : List Token → α → Prop) : List Token → List α → Prop
  | braces {us : List Token} {l r : Token} {as : List α} :
      l.kind = .symbol .leftBrace → Repeated P us as → r.kind = .symbol .rightBrace →
      Braced P (l :: (us ++ [r])) as

/-- A statement. -/
inductive IsStmt : List Token → Stmt → Prop
  | assign {us vs : List Token} {l e s : Token} {target : Name} {value : Expr} :
      l.kind = .keyword .letStmt → IsName us target → e.kind = .symbol .equals →
      IsExpr vs value → s.kind = .symbol .semicolon →
      IsStmt (l :: (us ++ e :: (vs ++ [s]))) (.assign target none value)
  | assignElement {us vs ws : List Token} {l b b' e s : Token} {target : Name}
      {index value : Expr} :
      l.kind = .keyword .letStmt → IsName us target → b.kind = .symbol .leftBracket →
      IsExpr vs index → b'.kind = .symbol .rightBracket → e.kind = .symbol .equals →
      IsExpr ws value → s.kind = .symbol .semicolon →
      IsStmt (l :: (us ++ b :: (vs ++ b' :: e :: (ws ++ [s])))) (.assign target (some index) value)
  | branch {us vs : List Token} {i : Token} {cond : Expr} {yes : List Stmt} :
      i.kind = .keyword .ifStmt → IsCondition us cond → Braced IsStmt vs yes →
      IsStmt (i :: (us ++ vs)) (.branch cond yes none)
  | branchElse {us vs ws : List Token} {i e : Token} {cond : Expr} {yes no : List Stmt} :
      i.kind = .keyword .ifStmt → IsCondition us cond → Braced IsStmt vs yes →
      e.kind = .keyword .elseBranch → Braced IsStmt ws no →
      IsStmt (i :: (us ++ (vs ++ e :: ws))) (.branch cond yes (some no))
  | loop {us vs : List Token} {w : Token} {cond : Expr} {body : List Stmt} :
      w.kind = .keyword .whileStmt → IsCondition us cond → Braced IsStmt vs body →
      IsStmt (w :: (us ++ vs)) (.loop cond body)
  | call {us : List Token} {d s : Token} {c : Call} :
      d.kind = .keyword .doStmt → IsCall us c → s.kind = .symbol .semicolon →
      IsStmt (d :: (us ++ [s])) (.call c)
  | ret {r s : Token} :
      r.kind = .keyword .returnStmt → s.kind = .symbol .semicolon → IsStmt [r, s] (.ret none)
  | retValue {us : List Token} {r s : Token} {value : Expr} :
      r.kind = .keyword .returnStmt → IsExpr us value → s.kind = .symbol .semicolon →
      IsStmt (r :: (us ++ [s])) (.ret (some value))

/-! ## Declarations -/

/-- A type. -/
inductive IsType : List Token → VarType → Prop
  | int {t : Token} : t.kind = .keyword .int → IsType [t] .int
  | char {t : Token} : t.kind = .keyword .char → IsType [t] .char
  | boolean {t : Token} : t.kind = .keyword .boolean → IsType [t] .boolean
  | object {t : Token} : t.kind = .identifier → IsType [t] (.object t.text)

/-- The word that announces a kind of class variables. -/
def ClassVariableKind.keyword : ClassVariableKind → Keyword
  | static => .static
  | field => .field

/-- The word that announces a kind of subroutine. -/
def SubroutineKind.keyword : SubroutineKind → Keyword
  | constructor => .constructor
  | function => .function
  | method => .method

/-- A line of class variables. -/
inductive IsClassVariables : List Token → ClassVariables → Prop
  | line {us vs : List Token} {k s : Token} {kind : ClassVariableKind} {type : VarType}
      {names : List Name} :
      k.kind = .keyword kind.keyword → IsType us type → Separated IsName vs names →
      s.kind = .symbol .semicolon → IsClassVariables (k :: (us ++ (vs ++ [s]))) ⟨kind, type, names⟩

/-- A parameter. -/
inductive IsParameter : List Token → Parameter → Prop
  | typed {us vs : List Token} {type : VarType} {n : Name} :
      IsType us type → IsName vs n → IsParameter (us ++ vs) ⟨type, n⟩

/-- A line of local variables. -/
inductive IsLocalVariables : List Token → LocalVariables → Prop
  | line {us vs : List Token} {k s : Token} {type : VarType} {names : List Name} :
      k.kind = .keyword .var → IsType us type → Separated IsName vs names →
      s.kind = .symbol .semicolon → IsLocalVariables (k :: (us ++ (vs ++ [s]))) ⟨type, names⟩

/-- What a subroutine returns. -/
inductive IsReturnType : List Token → Option VarType → Prop
  | void {t : Token} : t.kind = .keyword .void → IsReturnType [t] none
  | type {us : List Token} {type : VarType} : IsType us type → IsReturnType us (some type)

/-- The braces of a subroutine. -/
inductive IsBody : List Token → Body → Prop
  | braces {us vs : List Token} {l r : Token} {locals : List LocalVariables} {stmts : List Stmt} :
      l.kind = .symbol .leftBrace → Repeated IsLocalVariables us locals → Repeated IsStmt vs stmts →
      r.kind = .symbol .rightBrace → IsBody (l :: (us ++ (vs ++ [r]))) ⟨locals, stmts⟩

/-- A subroutine. -/
inductive IsSubroutine : List Token → Subroutine → Prop
  | declared {us vs ws xs : List Token} {k : Token} {kind : SubroutineKind}
      {returns : Option VarType} {n : Name} {ps : List Parameter} {b : Body} :
      k.kind = .keyword kind.keyword → IsReturnType us returns → IsName vs n →
      Parenthesised IsParameter ws ps → IsBody xs b →
      IsSubroutine (k :: (us ++ (vs ++ (ws ++ xs)))) ⟨kind, returns, n, ps, b⟩

/-- A member of a class. -/
inductive IsMember : List Token → Member → Prop
  | vars {us : List Token} {v : ClassVariables} : IsClassVariables us v → IsMember us (.vars v)
  | subroutine {us : List Token} {s : Subroutine} : IsSubroutine us s → IsMember us (.subroutine s)

/-- A class with its members in source order. -/
inductive IsClass : List Token → Name × List Member → Prop
  | declared {us vs : List Token} {k : Token} {n : Name} {members : List Member} :
      k.kind = .keyword .classDecl → IsName us n → Braced IsMember vs members →
      IsClass (k :: (us ++ vs)) (n, members)

/-- All tokens of a source: a class and the end. -/
inductive IsSource : List Token → Name × List Member → Prop
  | ended {us : List Token} {eof : Token} {c : Name × List Member} :
      IsClass us c → eof.kind = .finish → IsSource (us ++ [eof]) c

/-- The tree of a class with given members. -/
def ClassTree.ofMembers (n : Name) (members : List Member) : ClassTree :=
  ⟨n, members.filterMap Member.vars?, members.filterMap Member.subroutine?⟩

end JackCompiler
