import JackCompiler.Proofs.Output.Forms

/-!
# Straight-line code

Expressions, and statements without statements inside, are compiled to instructions that neither
jump nor can be jumped to. Only conditionals, loops and returns bring in the others.
-/

namespace JackCompiler

namespace Instruction

/-- An instruction after which the next one of the listing is executed. -/
def isStraight : Instruction → Bool
  | push .. | pop .. | command _ | call .. => true
  | _ => false

/-- The label that an instruction puts into a listing. -/
def label? : Instruction → Option Label
  | label l => some l
  | _ => none

/-- An instruction that begins a function. -/
def isFunction : Instruction → Bool
  | function .. => true
  | _ => false

theorem label?_of_isStraight {i : Instruction} (h : i.isStraight = true) : i.label? = none := by
  cases i with
  | label l => cases h
  | _ => rfl

theorem isFunction_of_isStraight {i : Instruction} (h : i.isStraight = true) :
    i.isFunction = false := by
  cases i with
  | function n k => cases h
  | _ => rfl

end Instruction

/-- Every instruction of the code is a straight-line one. -/
def Code.IsStraight (t : Code) : Prop :=
  ∀ i ∈ t.items, i.isStraight = true

namespace Code.IsStraight

theorem append {a b : Code} (ha : a.IsStraight) (hb : b.IsStraight) :
    Code.IsStraight (a ++ b) :=
  Code.All.append ha hb

theorem of_cons {i : Instruction} {is : List Instruction} (hi : i.isStraight = true)
    (his : Code.IsStraight (.of is)) : Code.IsStraight (.of (i :: is)) :=
  Code.All.cons hi his

theorem of_nil : Code.IsStraight (.of []) :=
  Code.All.nil

end Code.IsStraight

open Code.IsStraight

theorem Instruction.OfExpr.isStraight {f : Frame} {ms : List Mention} {i : Instruction}
    (h : OfExpr f ms i) : i.isStraight = true := by
  cases h <;> rfl

/-- The code of an expression is straight-line code. -/
theorem Expr.code_isStraight (order : OperatorOrder) (f : Frame) (e : Expr) :
    (e.code order f).IsStraight :=
  (e.code_ofExpr order (List.Subset.refl _)).mono fun _ => Instruction.OfExpr.isStraight

theorem Call.code_isStraight (order : OperatorOrder) (f : Frame) (c : Call) :
    (c.code order f).IsStraight :=
  (c.code_ofExpr order (List.Subset.refl _)).mono fun _ => Instruction.OfExpr.isStraight

theorem SubroutineKind.prologue_isStraight (k : SubroutineKind) (fields : Nat) :
    Code.IsStraight (.of (k.prologue fields)) := by
  cases k with
  | constructor => exact of_cons rfl (of_cons rfl (of_cons rfl of_nil))
  | method => exact of_cons rfl (of_cons rfl of_nil)
  | function => exact of_nil

theorem assignCode_isStraight (order : OperatorOrder) (f : Frame) (target : Name)
    (index : Option Expr) (value : Expr) : (assignCode order f target index value).IsStraight := by
  refine Code.All.withCell fun v _ => ?_
  cases index with
  | none => exact append (value.code_isStraight order f) (of_cons rfl of_nil)
  | some i =>
      exact append (i.code_isStraight order f) (append (of_cons rfl (of_cons rfl of_nil))
        (append (value.code_isStraight order f)
          (of_cons rfl (of_cons rfl (of_cons rfl (of_cons rfl of_nil))))))

end JackCompiler
