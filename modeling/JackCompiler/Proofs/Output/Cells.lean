import JackCompiler.Proofs.Mentions.Uses
import JackCompiler.Proofs.Output.Emission

/-!
# Cells of variables in code

Finished code reads and sets the cells of variables exactly as its tree uses them: one instruction
for each use of a variable, in the order of the uses, and none for a receiver that is no variable.
The order of operators and the numbering of labels do not matter for that.

## Implementation notes

Which instructions are emitted for a use is said by the variable in sight. Nothing is said about
stopped code, so a variable that is not in sight needs no case of its own.
-/

namespace JackCompiler

/-- The segments that hold variables. -/
def Segment.holdsVariables : Segment → Bool
  | static | this | argument | locals => true
  | constant | that | pointer | temp => false

/-- An instruction that reads or sets the cell of a variable. -/
def Instruction.isCell : Instruction → Bool
  | push segment _ | pop segment _ => segment.holdsVariables
  | command _ | label _ | goto _ | ifGoto _ | call _ _ | function _ _ | ret => false

/-- The instruction of a use, given the cell. A receiver is read. -/
def Access.instruction : Access → Segment → UInt16 → Instruction
  | read | receiver => .push
  | write => .pop

/-- The instruction of a use, if its name is a variable in sight. -/
def Frame.cell? (f : Frame) (u : Use) : Option Instruction :=
  (f.lookup? u.name.text).map fun v => u.access.instruction v.kind.segment v.index

theorem VariableKind.segment_holdsVariables (k : VariableKind) :
    k.segment.holdsVariables = true := by
  cases k <;> rfl

theorem Access.instruction_isCell (a : Access) (k : VariableKind) (index : UInt16) :
    (a.instruction k.segment index).isCell = true := by
  cases a <;> exact k.segment_holdsVariables

/-- The cells that finished code reads and sets are those of given uses. -/
def Code.Follows (f : Frame) (t : Code) (us : List Use) : Prop :=
  t.fault = none → t.items.filter Instruction.isCell = us.filterMap f.cell?

namespace Code.Follows

variable {f : Frame} {a b : Code} {us vs : List Use}

theorem append (ha : a.Follows f us) (hb : b.Follows f vs) :
    Code.Follows f (a ++ b) (us ++ vs) := by
  intro h
  obtain ⟨hfa, hfb⟩ := Trail.fault_append_eq_none_iff.mp h
  rw [Trail.items_append hfa, List.filter_append, ha hfa, hb hfb, List.filterMap_append]

theorem of {is : List Instruction} (h : ∀ i ∈ is, i.isCell = false) : Code.Follows f (.of is) [] :=
  fun _ => List.filter_eq_nil_iff.mpr fun i hi => by simp [h i hi]

/-- Code without cells before other code. -/
theorem prepend {is : List Instruction} (h : ∀ i ∈ is, i.isCell = false) (hb : b.Follows f vs) :
    Code.Follows f (.of is ++ b) vs :=
  (of h).append hb

/-- Code without cells behind other code. -/
theorem close {is : List Instruction} (ha : a.Follows f us) (h : ∀ i ∈ is, i.isCell = false) :
    Code.Follows f (a ++ .of is) us := by
  have hboth := ha.append (of h)
  rwa [List.append_nil] at hboth

theorem use {u : Use} {v : Variable} (hv : f.lookup? u.name.text = some v) :
    Code.Follows f (.of [u.access.instruction v.kind.segment v.index]) [u] := by
  intro _
  have hcell : f.cell? u = some (u.access.instruction v.kind.segment v.index) := by
    rw [Frame.cell?, hv]
    rfl
  rw [List.filterMap_cons_some hcell]
  exact List.filter_cons_of_pos (u.access.instruction_isCell v.kind v.index)

theorem withCell {n : Name} {code : Segment → UInt16 → Code}
    (h : ∀ v, f.lookup? n.text = some v → (code v.kind.segment v.index).Follows f us) :
    (f.withCell n code).Follows f us := by
  unfold Frame.withCell
  split
  · next v hv => exact h v hv
  · intro hstopped
    cases hstopped

end Code.Follows

/-! ## Expressions -/

open Code.Follows

variable {f : Frame}

theorem unaryCode_isCell (ops : List UnaryOp) : ∀ i ∈ unaryCode ops, i.isCell = false := by
  intro i hi
  obtain ⟨op, -, rfl⟩ := List.mem_map.mp hi
  cases op <;> rfl

theorem BinaryOp.instruction_isCell (op : BinaryOp) : op.instruction.isCell = false := by
  cases op <;> rfl

theorem Expr.deferredOps_isCell (e : Expr) {after : List Instruction}
    (h : ∀ i ∈ after, i.isCell = false) : ∀ i ∈ e.deferredOps after, i.isCell = false := by
  cases e with
  | operand unary t => exact List.forall_mem_append.mpr ⟨unaryCode_isCell unary, h⟩
  | binary unary t op rest =>
      apply Expr.deferredOps_isCell rest
      rw [List.forall_mem_cons, List.forall_mem_append]
      exact ⟨op.instruction_isCell, unaryCode_isCell unary, h⟩
termination_by structural e

theorem WordConstant.code_isCell (c : WordConstant) : ∀ i ∈ c.code, i.isCell = Bool.false := by
  cases c <;> decide

theorem textCode_follows (contents : String) (span : Span) :
    (textCode contents span).Follows f [] := by
  unfold textCode
  dsimp only
  split
  · intro hstopped
    cases hstopped
  · split
    · intro hstopped
      cases hstopped
    · refine of (List.forall_mem_cons.mpr ⟨rfl, List.forall_mem_cons.mpr ⟨rfl, ?_⟩⟩)
      intro i hi
      obtain ⟨c, -, hi⟩ := List.mem_flatMap.mp hi
      simp only [List.mem_cons, List.not_mem_nil, or_false] at hi
      rcases hi with rfl | rfl <;> rfl

mutual

/-- The code of an expression reads the variables that the expression uses. -/
theorem Expr.code_follows (order : OperatorOrder) :
    (e : Expr) → (e.code order f).Follows f e.uses
  | .operand unary t => (t.code_follows order).close (unaryCode_isCell unary)
  | .binary unary t op rest => by
      cases order with
      | deferred =>
          refine (t.code_follows _).append ((rest.operandsCode_follows _).close ?_)
          apply rest.deferredOps_isCell
          exact List.forall_mem_cons.mpr ⟨op.instruction_isCell, unaryCode_isCell unary⟩
      | leftToRight =>
          exact (t.code_follows _).append
            (prepend (unaryCode_isCell unary) (rest.codeAfter_follows _ op))
termination_by structural e => e

theorem Expr.operandsCode_follows (order : OperatorOrder) :
    (e : Expr) → (e.operandsCode order f).Follows f e.uses
  | .operand _ t => t.code_follows order
  | .binary _ t _ rest => (t.code_follows order).append (rest.operandsCode_follows order)
termination_by structural e => e

theorem Expr.codeAfter_follows (order : OperatorOrder) (op : BinaryOp) :
    (e : Expr) → (e.codeAfter order f op).Follows f e.uses
  | .operand unary t => by
      refine (t.code_follows order).close (List.forall_mem_append.mpr ⟨unaryCode_isCell unary, ?_⟩)
      exact List.forall_mem_singleton.mpr op.instruction_isCell
  | .binary unary t op' rest => by
      refine (t.code_follows order).append (prepend ?_ (rest.codeAfter_follows order op'))
      rw [List.forall_mem_append, List.forall_mem_singleton]
      exact ⟨unaryCode_isCell unary, op.instruction_isCell⟩
termination_by structural e => e

theorem Term.code_follows (order : OperatorOrder) :
    (t : Term) → (t.code order f).Follows f t.uses
  | .integer _ => of (by simp [Instruction.isCell, Segment.holdsVariables])
  | .text contents span => textCode_follows contents span
  | .word constant => of constant.code_isCell
  | .variable n => withCell fun _ hv => use (u := ⟨.read, n⟩) hv
  | .element array index => by
      have hrest : ∀ i ∈ [Instruction.command .add, .pop .pointer 1, .push .that 0],
          i.isCell = false := by decide
      refine withCell fun v hv => ?_
      exact (index.code_follows order).append ((use (u := ⟨.read, array⟩) hv).close hrest)
  | .call c => c.code_follows order
  | .paren inner => inner.code_follows order
termination_by structural t => t

theorem Call.code_follows (order : OperatorOrder) :
    (c : Call) → (c.code order f).Follows f c.uses
  | .mk none _ args =>
      prepend (by decide) ((argsCode_follows order args).close (List.forall_mem_singleton.mpr rfl))
  | .mk (some receiver) n args => by
      have hargs {callee : String} {count : Nat} :
          (argsCode order f args ++ .of [.call callee count]).Follows f (argsUses args) :=
        (argsCode_follows order args).close (List.forall_mem_singleton.mpr rfl)
      unfold Call.code
      split
      · next v hv => exact (use (u := ⟨.receiver, receiver⟩) hv).append hargs
      · next hv =>
        -- The receiver names a class, so its use asks for no cell.
        intro hfault
        have hcell : f.cell? ⟨.receiver, receiver⟩ = none := by
          rw [Frame.cell?, hv]
          rfl
        rw [Call.uses, List.filterMap_cons_none hcell]
        exact hargs hfault
termination_by structural c => c

theorem argsCode_follows (order : OperatorOrder) :
    (es : List Expr) → (argsCode order f es).Follows f (argsUses es)
  | [] => of (by simp)
  | e :: es => (e.code_follows order).append (argsCode_follows order es)
termination_by structural es => es

end

/-! ## Statements -/

/-- Whatever its counters, an emitter follows given uses. -/
def Emitter.Follows (f : Frame) (e : Emitter) (us : List Use) : Prop :=
  e.Always fun t => Code.Follows f t us

namespace Emitter.Follows

variable {a b : Emitter} {us vs : List Use}

theorem append (ha : a.Follows f us) (hb : b.Follows f vs) :
    Emitter.Follows f (a ++ b) (us ++ vs) :=
  Always.append (fun _ _ => Code.Follows.append) ha hb

theorem prepend {is : List Instruction} (h : ∀ i ∈ is, i.isCell = false) (hb : b.Follows f vs) :
    Emitter.Follows f (.emit is ++ b) vs :=
  append (.ofCode (.of h)) hb

theorem close {is : List Instruction} (ha : a.Follows f us) (h : ∀ i ∈ is, i.isCell = false) :
    Emitter.Follows f (a ++ .emit is) us := by
  have hboth := append ha (.ofCode (.of h))
  rwa [List.append_nil] at hboth

end Emitter.Follows

theorem assignCode_follows (order : OperatorOrder) (target : Name) (index : Option Expr)
    (value : Expr) :
    (assignCode order f target index value).Follows f (Stmt.assign target index value).uses := by
  refine withCell fun v hv => ?_
  cases index with
  | none => exact (value.code_follows order).append (use (u := ⟨.write, target⟩) hv)
  | some i =>
      have hadd : ∀ i ∈ [Instruction.command .add], i.isCell = false := by decide
      have hread := (use (u := ⟨.read, target⟩) hv).close hadd
      exact (i.code_follows order).append
        (hread.append ((value.code_follows order).close (by decide)))

theorem returnCode_follows (order : OperatorOrder) (value : Option Expr) :
    (returnCode order f value).Follows f (Stmt.ret value).uses := by
  cases value with
  | none => exact of (by decide)
  | some v => exact (v.code_follows order).close (by decide)

mutual

/-- The code of a statement reads and sets the variables that the statement uses. -/
theorem Stmt.emit_follows (o : Options) :
    (s : Stmt) → (s.emit o f).Follows f s.uses
  | .assign target index value => by
      rw [Stmt.emit]
      exact .ofCode (assignCode_follows _ target index value)
  | .branch cond yes none => by
      rw [Stmt.emit]
      refine .withIfNumber fun n => ?_
      exact Emitter.Follows.append (.ofCode (cond.code_follows _))
        (.prepend (by simp [Instruction.isCell])
          ((emitBranch_follows o yes).close (by simp [Instruction.isCell])))
  | .branch cond yes (some no) => by
      rw [Stmt.emit]
      refine .withIfNumber fun n => ?_
      exact Emitter.Follows.append (.ofCode (cond.code_follows _))
        (.prepend (by simp [Instruction.isCell])
          (.append (emitBranch_follows o yes)
            (.prepend (by simp [Instruction.isCell])
              ((emitBranch_follows o no).close (by simp [Instruction.isCell])))))
  | .loop cond body => by
      rw [Stmt.emit]
      refine fun c => ?_
      exact Emitter.Follows.prepend (by simp [Instruction.isCell])
        (.append (.ofCode (cond.code_follows _))
          (.prepend (by simp [Instruction.isCell])
            ((emitBlock_follows o body).close (by simp [Instruction.isCell])))) _
  | .call c => by
      rw [Stmt.emit]
      exact .ofCode ((c.code_follows _).close (by decide))
  | .ret value => by
      rw [Stmt.emit]
      exact .ofCode (returnCode_follows _ value)
termination_by structural s => s

theorem emitBlock_follows (o : Options) :
    (ss : List Stmt) → (emitBlock o f ss).Follows f (blockUses ss)
  | [] => .ofCode (.of (by simp))
  | s :: ss => (s.emit_follows o).append (emitBlock_follows o ss)
termination_by structural ss => ss

theorem emitBranch_follows (o : Options) :
    (ss : List Stmt) → (emitBranch o f ss).Follows f (blockUses ss)
  | [] => .ofCode (.of (by simp))
  | s :: ss => .append (.inBranch (s.emit_follows o)) (emitBranch_follows o ss)
termination_by structural ss => ss

end

end JackCompiler
