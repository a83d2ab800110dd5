import JackCompiler.Proofs.Evaluation.Machine
import JackCompiler.Emit.Statement

/-!
# What a tree means

The meaning of an expression is read off its tree, with no machine in it: an evaluation takes the
shared memory and gives a value and the shared memory after it. Operands are evaluated from left to
right whatever the order of the operators is. In deferred order the operator after an operand, and
then the unary operators before it, wait for everything to the right; from left to right they are
applied as soon as their operands are there.

## Implementation notes

An evaluation has no result where it needs a variable that was not declared. Strings are made by the
calls that make them at run time, so their meaning is that of these calls.
-/

namespace JackCompiler

/-- A computation on the shared memory. -/
abbrev Effect (W α : Type) := StateT (Globals W) Option α

namespace Meaning

variable {W : Type} (m : Meaning W)

/-- A call as an effect. -/
def calling (name : String) (args : List W) : Effect W W :=
  fun g => some (m.invoke name args g)

/-- The word at an address of the heap. -/
def load (address : W) : Effect W W :=
  fun g => some (g.heap address, g)

/-- The value of a variable. -/
def value (a : Activation W) (v : Variable) : Effect W W := fun g =>
  match v.kind with
  | .static => some (g.statics v.index, g)
  | .field => some (g.heap (m.field a.this v.index), g)
  | .argument => some (a.arguments v.index, g)
  | .localVar => some (a.locals v.index, g)

/-- The value of a name, which has to be declared. -/
def named (f : Frame) (a : Activation W) (n : Name) : Effect W W :=
  match f.lookup? n.text with
  | some v => m.value a v
  | none => fun _ => none

/-- Unary operators in source order, applied to a value: the outermost comes first. -/
def applyAll (ops : List UnaryOp) (v : W) : W :=
  ops.foldr m.unary v

/-- The value of a constant written as a reserved word. -/
def word (a : Activation W) : WordConstant → W
  | .true => m.unary .not (m.constant 0)
  | .false => m.constant 0
  | .null => m.constant 0
  | .this => a.this

/-- A string with one more character. -/
def withChar (s : W) (c : Char) : Effect W W :=
  m.calling "String.appendChar" [s, m.constant (UInt16.ofNat c.toNat)]

/-- The value of a string constant: a new string to which the characters are appended in order. -/
def text (contents : String) : Effect W W := do
  let empty ← m.calling "String.new" [m.constant (UInt16.ofNat contents.toList.length)]
  contents.toList.foldlM m.withChar empty

end Meaning

section Evaluation

variable {W : Type} (m : Meaning W) (order : OperatorOrder) (f : Frame) (a : Activation W)

mutual

/-- The value of an expression. -/
def Expr.eval : Expr → Effect W W
  | .operand unary t => do
      let v ← t.eval
      return m.applyAll unary v
  | .binary unary t op rest =>
      match order with
      | .deferred => do
          let v ← t.eval
          let w ← rest.eval
          return m.applyAll unary (m.binary op v w)
      | .leftToRight => do
          let v ← t.eval
          rest.evalAfter op (m.applyAll unary v)
termination_by structural e => e

/-- The value of a row from left to right, given the value of what stands before it and the operator
in between. -/
def Expr.evalAfter (op : BinaryOp) (acc : W) : Expr → Effect W W
  | .operand unary t => do
      let v ← t.eval
      return m.binary op acc (m.applyAll unary v)
  | .binary unary t op' rest => do
      let v ← t.eval
      rest.evalAfter op' (m.binary op acc (m.applyAll unary v))
termination_by structural e => e

/-- The value of a term. The index of an element is evaluated before the array is read, and then the
heap is read at their sum. -/
def Term.eval : Term → Effect W W
  | .integer value => pure (m.constant value)
  | .text contents _ => m.text contents
  | .word constant => pure (m.word a constant)
  | .variable n => m.named f a n
  | .element array index => do
      let i ← index.eval
      let base ← m.named f a array
      Meaning.load (m.binary .add i base)
  | .call c => c.eval
  | .paren inner => inner.eval
termination_by structural t => t

/-- The value of a call. A hidden receiver is read before the arguments are evaluated. -/
def Call.eval : Call → Effect W W
  | .mk none n args => do
      let vs ← evalArgs args
      m.calling (f.className ++ "." ++ n.text) (a.this :: vs)
  | .mk (some receiver) n args =>
      match f.lookup? receiver.text with
      | some v => do
          let object ← m.value a v
          let vs ← evalArgs args
          m.calling (v.type.text ++ "." ++ n.text) (object :: vs)
      | none => do
          let vs ← evalArgs args
          m.calling (receiver.text ++ "." ++ n.text) vs
termination_by structural c => c

/-- The values of arguments, evaluated in order. -/
def evalArgs : List Expr → Effect W (List W)
  | [] => pure []
  | e :: es => do
      let v ← e.eval
      let vs ← evalArgs es
      return v :: vs
termination_by structural es => es

end

variable [DecidableEq W]

/-- Give a variable a value. -/
def Meaning.setVariable (v : Variable) (w : W) : Effect W (Activation W) := fun g =>
  match v.kind with
  | .static => some (a, { g with statics := Function.update g.statics v.index w })
  | .field => some (a, g.store (m.field a.this v.index) w)
  | .argument => some ({ a with arguments := Function.update a.arguments v.index w }, g)
  | .localVar => some ({ a with locals := Function.update a.locals v.index w }, g)

/-- The effect of an assignment. The place of an element is known before the value is evaluated. -/
def assignEffect (target : Name) (index : Option Expr) (value : Expr) :
    Effect W (Activation W) :=
  match f.lookup? target.text with
  | none => fun _ => none
  | some v =>
      match index with
      | none => do
          let w ← value.eval m order f a
          m.setVariable a v w
      | some index => do
          let i ← index.eval m order f a
          let base ← m.value a v
          let w ← value.eval m order f a
          fun g => some (a, g.store (m.binary .add i base) w)

end Evaluation

end JackCompiler
