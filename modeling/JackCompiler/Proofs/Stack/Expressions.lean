import JackCompiler.Proofs.Stack.Depth

/-!
# Expressions and the stack

The code of an expression leaves its value on top of what it finds. Code is said to move the depth
from one number to another above any values that lie below; the code of a whole moves it as the codes
of its parts do, one after the other.

## Implementation notes

Only code that was not stopped moves the depth. The rest of a row from left to right finds the value
of what stands before it, so it moves the depth from one to one.
-/

namespace JackCompiler

/-- Finished code moves the depth of the stack from one number to another, whatever is below. -/
def Code.Moves (m n : Nat) (t : Code) : Prop :=
  t.fault = none → ∀ d, settledAfter? (d + m) t.items = some (d + n)

namespace Code.Moves

variable {m n k : Nat} {a b : Code}

theorem nil (n : Nat) : Moves n n (.of []) :=
  fun _ _ => rfl

theorem append (ha : a.Moves m k) (hb : b.Moves k n) : Moves m n (a ++ b) := by
  intro h d
  obtain ⟨hfirst, hsecond⟩ := Trail.fault_append_eq_none_iff.mp h
  rw [Trail.items_append hfirst]
  exact settledAfter?_append_iff.mpr ⟨_, ha hfirst d, hb hsecond d⟩

/-- Code leaves alone what is below. -/
theorem above (ha : a.Moves m n) (k : Nat) : a.Moves (m + k) (n + k) := by
  intro h d
  have hmoves := ha h (d + k)
  rwa [Nat.add_right_comm, Nat.add_right_comm d k, Nat.add_assoc, Nat.add_assoc] at hmoves

theorem one {i : Instruction} (h : i.isStraight = true) (k : Nat) :
    Moves (k + i.takes) (k + i.gives) (.of [i]) := by
  intro _ d
  refine settledAfter?_cons_iff.mpr ⟨_, ?_, settledAfter?_nil _⟩
  rw [Instruction.settledAfter?_of_isStraight h, ← Nat.add_assoc, ← Nat.add_assoc]
  exact Instruction.depthAfter?_of_isStraight h _

theorem cons {i : Instruction} {is : List Instruction} (hi : Moves m k (.of [i]))
    (his : Moves k n (.of is)) : Moves m n (.of (i :: is)) :=
  append hi his

theorem push (segment : Segment) (index : UInt16) (k : Nat) :
    Moves k (k + 1) (.of [.push segment index]) :=
  one rfl k

theorem pop (segment : Segment) (index : UInt16) (k : Nat) :
    Moves (k + 1) k (.of [.pop segment index]) :=
  one rfl k

theorem invoke (name : String) (args : Nat) : Moves args 1 (.of [.call name args]) := by
  have hone : Moves (0 + args) (0 + 1) (.of [.call name args]) := one rfl 0
  rwa [Nat.zero_add] at hone

theorem withCell {f : Frame} {x : Name} {code : Segment → UInt16 → Code}
    (h : ∀ segment index, (code segment index).Moves m n) : (f.withCell x code).Moves m n := by
  unfold Frame.withCell
  split
  · exact h _ _
  · intro hfault
    cases hfault

/-- Straight-line code that makes one value of none does so above any values. -/
theorem leavesOneValue (ha : a.Moves 0 1) (hfault : a.fault = none) (hstraight : a.IsStraight) :
    LeavesOneValue a.items :=
  leavesOneValue_of_straight hstraight (depthAfter?_of_settledAfter? (ha hfault 0))

end Code.Moves

open Code.Moves

theorem BinaryOp.instruction_moves (op : BinaryOp) (k : Nat) :
    Code.Moves (k + 2) (k + 1) (.of [op.instruction]) := by
  cases op <;> exact one rfl k

theorem unaryCode_moves (ops : List UnaryOp) (k : Nat) :
    Code.Moves (k + 1) (k + 1) (.of (unaryCode ops)) := by
  induction ops with
  | nil => exact nil _
  | cons op ops ih =>
      have hop : Code.Moves (k + 1) (k + 1) (.of [op.instruction]) := by
        cases op <;> exact one rfl k
      have hcode : unaryCode (op :: ops) = unaryCode ops ++ [op.instruction] := by
        simp [unaryCode]
      rw [hcode, ← Trail.of_append_of]
      exact ih.append hop

theorem WordConstant.code_moves (c : WordConstant) : Code.Moves 0 1 (.of c.code) := by
  cases c with
  | true => exact cons (push _ _ 0) (one rfl 0)
  | false | null | this => exact push _ _ 0

/-- The object of a string stays on the stack while its characters are appended to it. -/
theorem textCode_moves (contents : String) (span : Span) : (textCode contents span).Moves 0 1 := by
  have hchars : ∀ cs : List Char, Code.Moves 1 1
      (.of (cs.flatMap fun c => [pushConstant c.toNat, .call "String.appendChar" 2])) := by
    intro cs
    induction cs with
    | nil => exact nil 1
    | cons c cs ih =>
        rw [List.flatMap_cons, ← Trail.of_append_of]
        exact append (cons (push _ _ 1) (invoke _ 2)) ih
  unfold textCode
  dsimp only
  split
  · intro hfault
    cases hfault
  · split
    · intro hfault
      cases hfault
    · exact cons (push _ _ 0) (cons (invoke _ 1) (hchars _))

variable (f : Frame)

mutual

/-- The code of an expression makes one value. -/
theorem Expr.code_moves (order : OperatorOrder) : (e : Expr) → (e.code order f).Moves 0 1
  | .operand unary t => (t.code_moves order).append (unaryCode_moves unary 0)
  | .binary unary t op rest => by
      cases order with
      | deferred =>
          rw [Expr.code_deferred_binary]
          exact (t.code_moves .deferred).append
            (((rest.code_moves .deferred).above 1).append
              (cons (op.instruction_moves 0) (unaryCode_moves unary 0)))
      | leftToRight =>
          exact (t.code_moves .leftToRight).append
            ((unaryCode_moves unary 0).append (rest.codeAfter_moves .leftToRight op))
termination_by structural e => e

/-- The code of the rest of a row makes one value of the one before it. -/
theorem Expr.codeAfter_moves (order : OperatorOrder) (op : BinaryOp) :
    (e : Expr) → (e.codeAfter order f op).Moves 1 1
  | .operand unary t =>
      ((t.code_moves order).above 1).append
        ((unaryCode_moves unary 1).append (op.instruction_moves 0))
  | .binary unary t op' rest =>
      ((t.code_moves order).above 1).append
        (((unaryCode_moves unary 1).append (op.instruction_moves 0)).append
          (rest.codeAfter_moves order op'))
termination_by structural e => e

theorem Term.code_moves (order : OperatorOrder) : (t : Term) → (t.code order f).Moves 0 1
  | .integer _ => push _ _ 0
  | .text contents span => textCode_moves contents span
  | .word constant => constant.code_moves
  | .variable _ => withCell fun _ _ => push _ _ 0
  | .element _ index => withCell fun _ _ =>
      (index.code_moves order).append
        (cons (push _ _ 1) (cons (one rfl 0) (cons (pop _ _ 0) (push _ _ 0))))
  | .call c => c.code_moves order
  | .paren inner => inner.code_moves order
termination_by structural t => t

/-- A call takes its arguments, the hidden one included, and leaves its result. -/
theorem Call.code_moves (order : OperatorOrder) : (c : Call) → (c.code order f).Moves 0 1
  | .mk none _ args =>
      (push _ _ 0).append (((argsCode_moves order args).above 1).append (invoke _ _))
  | .mk (some receiver) _ args => by
      unfold Call.code
      split
      · exact (push _ _ 0).append (((argsCode_moves order args).above 1).append (invoke _ _))
      · exact (argsCode_moves order args).append (invoke _ _)
termination_by structural c => c

/-- Arguments make one value each. -/
theorem argsCode_moves (order : OperatorOrder) :
    (es : List Expr) → (argsCode order f es).Moves 0 es.length
  | [] => nil 0
  | e :: es => by
      rw [List.length_cons]
      exact (e.code_moves order).append ((argsCode_moves order es).above 1)
termination_by structural es => es

end

end JackCompiler
