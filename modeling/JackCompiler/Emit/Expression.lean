import JackCompiler.Emit.Trail
import JackCompiler.Machine.Instruction
import JackCompiler.Options
import JackCompiler.Scope.Basic

/-!
# Code of expressions

The code of an expression leaves its value on the stack and needs nothing that was there before.
Operands are pushed from left to right. The two orders differ in where the operators come: deferred
ones follow all operands, the last operator of the row first and the unary operators of an operand
after everything to its right.

A variable is looked up in the scope of the subroutine first and in the scope of the class second.

## Implementation notes

The deferred operators of a row are collected onto the ones that come after them, so that a long row
is not copied once for each of its operators. `Expr.deferredOps_append` gives the operators of a
row by themselves.
-/

namespace JackCompiler

/-- Instructions in order, and the complaint that stopped them if there is one. -/
abbrev Code := Trail Instruction

/-- Where an expression stands: the name of the class and the variables in sight. -/
structure Frame where
  className : String
  classScope : Scope
  scope : Scope
deriving DecidableEq, Repr

namespace Frame

/-- The variable of a name. -/
def lookup? (f : Frame) (name : String) : Option Variable :=
  (f.scope.find? name).or (f.classScope.find? name)

/-- Make code from the cell of a variable, which has to be declared. -/
def withCell (f : Frame) (n : Name) (code : Segment → UInt16 → Code) : Code :=
  match f.lookup? n.text with
  | some v => code v.kind.segment v.index
  | none => .stopped ⟨.meaning (.undefinedVariable n.text), n.span.start⟩

end Frame

/-- Push a constant that fits a word. -/
def pushConstant (n : Nat) : Instruction :=
  .push .constant (UInt16.ofNat n)

/-- The instruction of a binary operator. The machine has no multiplication and no division, so
these two are calls. -/
def BinaryOp.instruction : BinaryOp → Instruction
  | add => .command .add
  | sub => .command .sub
  | mul => .call "Math.multiply" 2
  | div => .call "Math.divide" 2
  | and => .command .and
  | or => .command .or
  | lt => .command .lt
  | gt => .command .gt
  | eq => .command .eq

/-- The instruction of a unary operator. -/
def UnaryOp.instruction : UnaryOp → Instruction
  | neg => .command .neg
  | not => .command .not

/-- The instructions of unary operators given in source order: the innermost is the first to be
applied. -/
def unaryCode (ops : List UnaryOp) : List Instruction :=
  ops.reverse.map UnaryOp.instruction

/-- The deferred operators of a row, before the instructions that come after them. -/
def Expr.deferredOps : Expr → List Instruction → List Instruction
  | .operand unary _, after => unaryCode unary ++ after
  | .binary unary _ op rest, after =>
      rest.deferredOps (op.instruction :: (unaryCode unary ++ after))
termination_by structural e => e

theorem Expr.deferredOps_append (e : Expr) (xs ys : List Instruction) :
    e.deferredOps (xs ++ ys) = e.deferredOps xs ++ ys := by
  match e with
  | .operand unary t => simp [deferredOps]
  | .binary unary t op rest =>
      simp only [deferredOps]
      rw [← List.append_assoc, ← List.cons_append, Expr.deferredOps_append rest]
termination_by structural e

/-- The code of a constant written as a reserved word. -/
def WordConstant.code : WordConstant → List Instruction
  | true => [pushConstant 0, .command .not]
  | false => [pushConstant 0]
  | null => [pushConstant 0]
  | this => [.push .pointer 0]

/-- The code of a string constant: a string object is built one character at a time. Every
character, and then the length, has to be a constant of the machine. -/
def textCode (contents : String) (span : Span) : Code :=
  let cs := contents.toList
  match cs.find? fun c => maxConstant < c.toNat with
  | some c => .stopped ⟨.meaning (.characterOutOfRange c), span.start⟩
  | none =>
      if maxConstant < cs.length then .stopped ⟨.meaning (.textTooLong cs.length), span.start⟩
      else .of (pushConstant cs.length :: .call "String.new" 1 ::
        cs.flatMap fun c => [pushConstant c.toNat, .call "String.appendChar" 2])

mutual

/-- The code of an expression. -/
def Expr.code (order : OperatorOrder) (f : Frame) : Expr → Code
  | .operand unary t => t.code order f ++ .of (unaryCode unary)
  | .binary unary t op rest =>
      match order with
      | .deferred =>
          t.code order f ++
            (rest.operandsCode order f ++ .of (rest.deferredOps (op.instruction :: unaryCode unary)))
      | .leftToRight => t.code order f ++ (.of (unaryCode unary) ++ rest.codeAfter order f op)
termination_by structural e => e

/-- The code of the terms of a row, without any operators of the row. -/
def Expr.operandsCode (order : OperatorOrder) (f : Frame) : Expr → Code
  | .operand _ t => t.code order f
  | .binary _ t _ rest => t.code order f ++ rest.operandsCode order f
termination_by structural e => e

/-- The code of the rest of a row from left to right, given the operator that joins it to what
stands before it. -/
def Expr.codeAfter (order : OperatorOrder) (f : Frame) (op : BinaryOp) : Expr → Code
  | .operand unary t => t.code order f ++ .of (unaryCode unary ++ [op.instruction])
  | .binary unary t op' rest =>
      t.code order f ++
        (.of (unaryCode unary ++ [op.instruction]) ++ rest.codeAfter order f op')
termination_by structural e => e

/-- The code of a term. -/
def Term.code (order : OperatorOrder) (f : Frame) : Term → Code
  | .integer value => .of [.push .constant value]
  | .text contents span => textCode contents span
  | .word constant => .of constant.code
  | .variable n => f.withCell n fun segment index => .of [.push segment index]
  | .element array index =>
      f.withCell array fun segment base =>
        index.code order f ++
          .of [.push segment base, .command .add, .pop .pointer 1, .push .that 0]
  | .call c => c.code order f
  | .paren inner => inner.code order f
termination_by structural t => t

/-- The code of a call. Without a receiver it is a method of the current object, and with a variable
before the dot a method of the object in it; the object is then a first, hidden argument. Any other
receiver names a class. -/
def Call.code (order : OperatorOrder) (f : Frame) : Call → Code
  | .mk none n args =>
      .of [.push .pointer 0] ++ (argsCode order f args ++
        .of [.call (f.className ++ "." ++ n.text) (args.length + 1)])
  | .mk (some receiver) n args =>
      match f.lookup? receiver.text with
      | some v =>
          .of [.push v.kind.segment v.index] ++ (argsCode order f args ++
            .of [.call (v.type.text ++ "." ++ n.text) (args.length + 1)])
      | none =>
          argsCode order f args ++ .of [.call (receiver.text ++ "." ++ n.text) args.length]
termination_by structural c => c

/-- The code of arguments, in order. -/
def argsCode (order : OperatorOrder) (f : Frame) : List Expr → Code
  | [] => .of []
  | e :: es => e.code order f ++ argsCode order f es
termination_by structural es => es

end

/-- In deferred order the code of a row is that of its terms and then all of its operators. -/
theorem Expr.code_deferred (f : Frame) (e : Expr) :
    e.code .deferred f = e.operandsCode .deferred f ++ .of (e.deferredOps []) := by
  cases e with
  | operand unary t => simp [Expr.code, Expr.operandsCode, Expr.deferredOps]
  | binary unary t op rest =>
      simp [Expr.code, Expr.operandsCode, Expr.deferredOps, Trail.append_assoc]

/-- In deferred order an operator and the unary operators before it come after everything to its
right. -/
theorem Expr.code_deferred_binary (f : Frame) (unary : List UnaryOp) (t : Term) (op : BinaryOp)
    (rest : Expr) :
    (Expr.binary unary t op rest).code .deferred f =
      t.code .deferred f ++
        (rest.code .deferred f ++ .of (op.instruction :: unaryCode unary)) := by
  have split := Expr.deferredOps_append rest [] (op.instruction :: unaryCode unary)
  rw [List.nil_append] at split
  rw [Expr.code_deferred f rest, Trail.append_assoc, Trail.of_append_of, ← split]
  simp only [Expr.code]

end JackCompiler
