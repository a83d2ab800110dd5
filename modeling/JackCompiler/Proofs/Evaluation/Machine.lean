import JackCompiler.Proofs.Output.Straight
import Mathlib.Logic.Function.Basic

/-!
# The stack machine on straight-line code

The machine has one stack. A subroutine owns its local variables, its arguments and the object that
it works on; all subroutines share the static variables and the heap. The second pointer cell and
the temporary cells are scratch.

What the machine computes with is left open: the words, the constants, the operators, the place of a
field in an object and the effect of a call are a `Meaning`. Only the two subroutines that stand for
multiplication and division are read as these operators.

## Implementation notes

A field is reached through the first pointer cell and an element of an array through the second one,
which generated code uses with offset zero only. A call may leave anything in the temporary cells.
An instruction that jumps, and one that finds the stack too short, has no step.
-/

namespace JackCompiler

/-- The memory that subroutines share. -/
structure Globals (W : Type) where
  statics : UInt16 → W
  heap : W → W

/-- The memory of one subroutine at work: its variables and the object in its first pointer cell. -/
structure Activation (W : Type) where
  locals : UInt16 → W
  arguments : UInt16 → W
  this : W

/-- Put a word into an address of the heap. -/
def Globals.store {W : Type} [DecidableEq W] (g : Globals W) (address v : W) : Globals W :=
  { g with heap := Function.update g.heap address v }

/-- A state of the machine, with the top of the stack first. -/
structure Machine (W : Type) where
  stack : List W
  activation : Activation W
  globals : Globals W
  that : W
  temp : UInt16 → W

/-- An interpretation of what programs leave open. -/
structure Meaning (W : Type) where
  constant : UInt16 → W
  binary : BinaryOp → W → W → W
  unary : UnaryOp → W → W
  /-- The address of a field of an object. -/
  field : W → UInt16 → W
  /-- The result of a call on its arguments, and the shared memory after it. -/
  call : String → List W → Globals W → W × Globals W
  /-- What a call leaves in the temporary cells. -/
  scratch : String → List W → Globals W → (UInt16 → W) → UInt16 → W

/-- The operator that a command of the machine applies. -/
def Command.operator : Command → BinaryOp ⊕ UnaryOp
  | add => .inl .add
  | sub => .inl .sub
  | neg => .inr .neg
  | eq => .inl .eq
  | gt => .inl .gt
  | lt => .inl .lt
  | and => .inl .and
  | or => .inl .or
  | not => .inr .not

namespace Meaning

variable {W : Type} (m : Meaning W)

/-- What a call does: multiplication and division are operators, and all else is left open. -/
def invoke (name : String) (args : List W) (g : Globals W) : W × Globals W :=
  match args with
  | [x, y] =>
      if name = "Math.multiply" then (m.binary .mul x y, g)
      else if name = "Math.divide" then (m.binary .div x y, g)
      else m.call name args g
  | _ => m.call name args g

/-- The word in a cell. -/
def read (σ : Machine W) : Segment → UInt16 → Option W
  | .constant, i => some (m.constant i)
  | .locals, i => some (σ.activation.locals i)
  | .argument, i => some (σ.activation.arguments i)
  | .static, i => some (σ.globals.statics i)
  | .this, i => some (σ.globals.heap (m.field σ.activation.this i))
  | .that, i => if i = 0 then some (σ.globals.heap σ.that) else none
  | .pointer, i =>
      if i = 0 then some σ.activation.this else if i = 1 then some σ.that else none
  | .temp, i => some (σ.temp i)

variable [DecidableEq W]

/-- Put a word into a cell. -/
def write (σ : Machine W) (v : W) : Segment → UInt16 → Option (Machine W)
  | .constant, _ => none
  | .locals, i =>
      let locals := Function.update σ.activation.locals i v
      some { σ with activation := { σ.activation with locals := locals } }
  | .argument, i =>
      let arguments := Function.update σ.activation.arguments i v
      some { σ with activation := { σ.activation with arguments := arguments } }
  | .static, i =>
      let statics := Function.update σ.globals.statics i v
      some { σ with globals := { σ.globals with statics := statics } }
  | .this, i => some { σ with globals := σ.globals.store (m.field σ.activation.this i) v }
  | .that, i => if i = 0 then some { σ with globals := σ.globals.store σ.that v } else none
  | .pointer, i =>
      if i = 0 then some { σ with activation := { σ.activation with this := v } }
      else if i = 1 then some { σ with that := v }
      else none
  | .temp, i => some { σ with temp := Function.update σ.temp i v }

/-- One step of the machine. -/
def step (σ : Machine W) : Instruction → Option (Machine W)
  | .push segment i => (m.read σ segment i).map fun v => { σ with stack := v :: σ.stack }
  | .pop segment i =>
      match σ.stack with
      | [] => none
      | v :: rest => m.write { σ with stack := rest } v segment i
  | .command c =>
      match c.operator, σ.stack with
      | .inl op, y :: x :: rest => some { σ with stack := m.binary op x y :: rest }
      | .inr op, x :: rest => some { σ with stack := m.unary op x :: rest }
      | _, _ => none
  | .call name n =>
      if n ≤ σ.stack.length then
        let args := (σ.stack.take n).reverse
        let (v, g) := m.invoke name args σ.globals
        some { σ with
          stack := v :: σ.stack.drop n
          globals := g
          temp := m.scratch name args σ.globals σ.temp }
      else none
  | _ => none

/-- The state after executing instructions in order. -/
def run (code : List Instruction) (σ : Machine W) : Option (Machine W) :=
  code.foldlM m.step σ

@[simp] theorem run_nil (σ : Machine W) : m.run [] σ = some σ := rfl

theorem run_cons (i : Instruction) (code : List Instruction) (σ : Machine W) :
    m.run (i :: code) σ = (m.step σ i).bind (m.run code) := rfl

/-- Running one piece of code after another. -/
theorem run_append (xs ys : List Instruction) (σ : Machine W) :
    m.run (xs ++ ys) σ = (m.run xs σ).bind (m.run ys) :=
  List.foldlM_append

/-- A call takes its arguments from the stack, the last one first. -/
theorem run_call (name : String) (args S : List W) (a : Activation W) (g : Globals W) (w : W)
    (τ : UInt16 → W) :
    ∃ τ', m.run [.call name args.length] ⟨args.reverse ++ S, a, g, w, τ⟩ =
      some ⟨(m.invoke name args g).1 :: S, a, (m.invoke name args g).2, w, τ'⟩ := by
  refine ⟨m.scratch name args g τ, ?_⟩
  have htake : (args.reverse ++ S).take args.length = args.reverse :=
    List.take_left' List.length_reverse
  have hdrop : (args.reverse ++ S).drop args.length = S :=
    List.drop_left' List.length_reverse
  simp [run_cons, step, htake, hdrop]

/-- An operator takes its operands from the stack, whether it is a command or a call. -/
theorem run_binary (op : BinaryOp) (x y : W) (S : List W) (a : Activation W) (g : Globals W)
    (w : W) (τ : UInt16 → W) :
    ∃ τ', m.run [op.instruction] ⟨y :: x :: S, a, g, w, τ⟩ =
      some ⟨m.binary op x y :: S, a, g, w, τ'⟩ := by
  cases op with
  | mul => exact m.run_call "Math.multiply" [x, y] S a g w τ
  | div => exact m.run_call "Math.divide" [x, y] S a g w τ
  | _ => exact ⟨τ, rfl⟩

theorem run_unary (op : UnaryOp) (x : W) (S : List W) (a : Activation W) (g : Globals W)
    (w : W) (τ : UInt16 → W) :
    m.run [op.instruction] ⟨x :: S, a, g, w, τ⟩ = some ⟨m.unary op x :: S, a, g, w, τ⟩ := by
  cases op <;> rfl

end Meaning

end JackCompiler
