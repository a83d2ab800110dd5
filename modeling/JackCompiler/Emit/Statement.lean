import JackCompiler.Emit.Expression
import JackCompiler.Emit.Numbering
import JackCompiler.Tree.Statement

/-!
# Code of statements

A statement finds the stack as the last one left it and leaves it so, a return apart. Conditionals
and loops number their labels when they begin, before the statements inside them do.

Under nested numbering a conditional shows the current number without taking it; one that stands
directly in a branch of another steps the number up for itself and down again.

## Implementation notes

An emitter makes code while it counts. When the code is stopped the counters stay where they are at
that moment, so a step that would undo another is not reached either.
-/

namespace JackCompiler

/-- A step of code generation that takes numbers from counters. -/
def Emitter : Type :=
  Counters → Code × Counters

namespace Emitter

/-- Emit code that needs no numbers. -/
def ofCode (code : Code) : Emitter :=
  fun c => (code, c)

/-- Emit instructions. -/
def emit (code : List Instruction) : Emitter :=
  ofCode (.of code)

/-- One emitter after the other; the second is not reached if the first is stopped. -/
def append (a b : Emitter) : Emitter := fun c =>
  match a c with
  | (⟨items, some e⟩, c') => (⟨items, some e⟩, c')
  | (⟨items, none⟩, c') => let (code, c'') := b c'; (⟨items ++ code.items, code.fault⟩, c'')

instance : Append Emitter :=
  ⟨append⟩

/-- Step a counter up. -/
def increment (k : Numbered) : Emitter :=
  fun c => (.of [], c.increment k)

/-- Step a counter down. -/
def decrement (k : Numbered) : Emitter :=
  fun c => (.of [], c.decrement k)

/-- Emit what depends on the value of a counter. -/
def withCurrent (k : Numbered) (body : Nat → Emitter) : Emitter :=
  fun c => body (c.get k) c

/-- Emit what depends on the next number, which is taken. -/
def withNext (k : Numbered) (body : Nat → Emitter) : Emitter :=
  fun c => let (n, c') := c.next k; body n c'

/-- Emit what depends on the number of a conditional. -/
def withIfNumber : IfNumbering → (Nat → Emitter) → Emitter
  | .unique => withNext .conditional
  | .nested => withCurrent .conditional

/-- Emit a statement of a branch: under nested numbering a conditional there counts one deeper. -/
def inBranch (o : Options) (s : Stmt) (e : Emitter) : Emitter :=
  match o.ifNumbering, s with
  | .nested, .branch .. => increment .conditional ++ (e ++ decrement .conditional)
  | _, _ => e

end Emitter

/-- The code of an assignment. The value may itself read an element, so the address of the element
that is set stays on the stack until the value is known. -/
def assignCode (order : OperatorOrder) (f : Frame) (target : Name) (index : Option Expr)
    (value : Expr) : Code :=
  f.withCell target fun segment n =>
    match index with
    | none => value.code order f ++ .of [.pop segment n]
    | some i =>
        i.code order f ++ (.of [.push segment n, .command .add] ++ (value.code order f ++
          .of [.pop .temp 0, .pop .pointer 1, .push .temp 0, .pop .that 0]))

/-- The code of a return. Without a value it returns zero. -/
def returnCode (order : OperatorOrder) (f : Frame) (value : Option Expr) : Code :=
  match value with
  | some v => v.code order f ++ .of [.ret]
  | none => .of [pushConstant 0, .ret]

mutual

/-- Emit a statement. -/
def Stmt.emit (o : Options) (f : Frame) : Stmt → Emitter
  | .assign target index value => .ofCode (assignCode o.operatorOrder f target index value)
  | .branch cond yes no =>
      Emitter.withIfNumber o.ifNumbering fun n =>
        .ofCode (cond.code o.operatorOrder f) ++
          (.emit [.ifGoto (.numbered .ifTrue n), .goto (.numbered .ifFalse n),
            .label (.numbered .ifTrue n)] ++
          (emitBranch o f yes ++
          match no with
          | some stmts =>
              .emit [.goto (.numbered .ifEnd n), .label (.numbered .ifFalse n)] ++
                (emitBranch o f stmts ++ .emit [.label (.numbered .ifEnd n)])
          | none => .emit [.label (.numbered .ifFalse n)]))
  | .loop cond body =>
      Emitter.withNext .loop fun n =>
        .emit [.label (.numbered .whileStart n)] ++
          (.ofCode (cond.code o.operatorOrder f) ++
          (.emit [.command .not, .ifGoto (.numbered .whileEnd n)] ++
          (emitBlock o f body ++
            .emit [.goto (.numbered .whileStart n), .label (.numbered .whileEnd n)])))
  | .call c => .ofCode (c.code o.operatorOrder f ++ .of [.pop .temp 0])
  | .ret value => .ofCode (returnCode o.operatorOrder f value)
termination_by structural s => s

/-- Emit the statements of a subroutine or a loop. -/
def emitBlock (o : Options) (f : Frame) : List Stmt → Emitter
  | [] => .emit []
  | s :: ss => s.emit o f ++ emitBlock o f ss
termination_by structural ss => ss

/-- Emit the statements of a branch of a conditional. -/
def emitBranch (o : Options) (f : Frame) : List Stmt → Emitter
  | [] => .emit []
  | s :: ss => Emitter.inBranch o s (s.emit o f) ++ emitBranch o f ss
termination_by structural ss => ss

end

end JackCompiler
