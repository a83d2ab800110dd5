import JackCompiler.Proofs.Mentions.Trees
import JackCompiler.Proofs.Output.Emission

/-!
# Where code is stopped

Code is stopped at the first mention that makes an offence: a variable that nothing in sight
declares, or a string constant that does not fit the constants of the machine. The order of
operators and the numbering of labels do not matter for that, and a receiver is no offence.

## Implementation notes

What an emitter counts never stops it, so its complaint is one and the same for all counters.
-/

namespace JackCompiler

/-- What is wrong with a mention, given which names are declared. -/
def Mention.offence? (declared : String → Bool) : Mention → Option Complaint
  | name .variable n =>
      if declared n.text then none else some ⟨.meaning (.undefinedVariable n.text), n.span.start⟩
  | name _ _ | number _ => none
  | text contents span =>
      match contents.toList.find? fun c => maxConstant < c.toNat with
      | some c => some ⟨.meaning (.characterOutOfRange c), span.start⟩
      | none =>
          if maxConstant < contents.toList.length then
            some ⟨.meaning (.textTooLong contents.toList.length), span.start⟩
          else none

/-- The first offence among mentions. -/
def offenceIn? (declared : String → Bool) (ms : List Mention) : Option Complaint :=
  ms.findSome? (Mention.offence? declared)

/-- A name has a variable in sight. -/
def Frame.declares (f : Frame) (x : String) : Bool :=
  (f.lookup? x).isSome

theorem offenceIn?_append (declared : String → Bool) (ms ns : List Mention) :
    offenceIn? declared (ms ++ ns) = (offenceIn? declared ms).or (offenceIn? declared ns) :=
  List.findSome?_append

theorem offenceIn?_cons (declared : String → Bool) (m : Mention) (ms : List Mention) :
    offenceIn? declared (m :: ms) = (m.offence? declared).or (offenceIn? declared ms) := by
  rw [offenceIn?, List.findSome?_cons]
  cases m.offence? declared <;> rfl

namespace Trail

variable {α : Type}

theorem fault_append (a b : Trail α) : (a ++ b).fault = a.fault.or b.fault := by
  rcases a with ⟨xs, _ | e⟩ <;> rfl

theorem fault_append_of (a : Trail α) (xs : List α) : (a ++ of xs).fault = a.fault := by
  rw [fault_append]
  exact Option.or_none

theorem fault_of_append (xs : List α) (b : Trail α) : (of xs ++ b).fault = b.fault := rfl

end Trail

open Trail

variable {f : Frame}

/-- A variable that is not in sight stops code before anything else does. -/
theorem Frame.withCell_fault {n : Name} {code : Segment → UInt16 → Code} {e : Option Complaint}
    (h : ∀ segment index, (code segment index).fault = e) :
    (f.withCell n code).fault = ((Mention.name .variable n).offence? f.declares).or e := by
  have hoffence : (Mention.name .variable n).offence? f.declares = if (f.lookup? n.text).isSome
      then none else some ⟨.meaning (.undefinedVariable n.text), n.span.start⟩ := rfl
  rw [Frame.withCell, hoffence]
  cases f.lookup? n.text with
  | none => rfl
  | some v => exact h _ _

theorem textCode_fault (contents : String) (span : Span) :
    (textCode contents span).fault = (Mention.text contents span).offence? f.declares := by
  rw [textCode, Mention.offence?]
  cases contents.toList.find? fun c => maxConstant < c.toNat with
  | some c => rfl
  | none =>
      dsimp only
      split <;> rfl

mutual

/-- The code of an expression is stopped at the first offence among its mentions. -/
theorem Expr.code_fault (order : OperatorOrder) :
    (e : Expr) → (e.code order f).fault = offenceIn? f.declares e.mentions
  | .operand unary t => by
      rw [Expr.code, fault_append_of, t.code_fault order, Expr.mentions]
  | .binary unary t op rest => by
      rw [Expr.mentions, offenceIn?_append, ← t.code_fault order]
      cases order with
      | deferred =>
          rw [← rest.operandsCode_fault .deferred, Expr.code, fault_append, fault_append_of]
      | leftToRight =>
          rw [← rest.codeAfter_fault .leftToRight op, Expr.code, fault_append, fault_of_append]
termination_by structural e => e

theorem Expr.operandsCode_fault (order : OperatorOrder) :
    (e : Expr) → (e.operandsCode order f).fault = offenceIn? f.declares e.mentions
  | .operand _ t => t.code_fault order
  | .binary _ t _ rest => by
      rw [Expr.operandsCode, fault_append, t.code_fault order, rest.operandsCode_fault order,
        Expr.mentions, offenceIn?_append]
termination_by structural e => e

theorem Expr.codeAfter_fault (order : OperatorOrder) (op : BinaryOp) :
    (e : Expr) → (e.codeAfter order f op).fault = offenceIn? f.declares e.mentions
  | .operand unary t => by
      rw [Expr.codeAfter, fault_append_of, t.code_fault order, Expr.mentions]
  | .binary unary t op' rest => by
      rw [Expr.codeAfter, fault_append, fault_of_append, t.code_fault order,
        rest.codeAfter_fault order op', Expr.mentions, offenceIn?_append]
termination_by structural e => e

theorem Term.code_fault (order : OperatorOrder) :
    (t : Term) → (t.code order f).fault = offenceIn? f.declares t.mentions
  | .integer _ | .word _ => rfl
  | .text contents span => by
      rw [Term.code, textCode_fault, Term.mentions, offenceIn?_cons]
      exact Option.or_none.symm
  | .variable n => by
      rw [Term.code, Frame.withCell_fault (e := none) fun _ _ => rfl, Term.mentions,
        offenceIn?_cons]
      rfl
  | .element array index => by
      rw [Term.code, Frame.withCell_fault fun _ _ => fault_append_of _ _, index.code_fault order,
        Term.mentions, offenceIn?_cons]
  | .call c => c.code_fault order
  | .paren inner => inner.code_fault order
termination_by structural t => t

theorem Call.code_fault (order : OperatorOrder) :
    (c : Call) → (c.code order f).fault = offenceIn? f.declares c.mentions
  | .mk none n args => by
      rw [Call.code, fault_of_append, fault_append_of, argsCode_fault order args, Call.mentions,
        offenceIn?_cons]
      rfl
  | .mk (some receiver) n args => by
      rw [Call.mentions, offenceIn?_cons, offenceIn?_cons]
      unfold Call.code
      split
      · rw [fault_of_append, fault_append_of, argsCode_fault order args]
        rfl
      · rw [fault_append_of, argsCode_fault order args]
        rfl
termination_by structural c => c

theorem argsCode_fault (order : OperatorOrder) :
    (es : List Expr) → (argsCode order f es).fault = offenceIn? f.declares (argsMentions es)
  | [] => rfl
  | e :: es => by
      rw [argsCode, fault_append, e.code_fault order, argsCode_fault order es, argsMentions,
        offenceIn?_append]
termination_by structural es => es

end

/-! ## Statements -/

namespace Emitter

/-- Whatever its counters, an emitter is stopped by the same complaint or not at all. -/
def Stops (e : Emitter) (fault : Option Complaint) : Prop :=
  e.Always (·.fault = fault)

namespace Stops

theorem ofCode (t : Code) : (Emitter.ofCode t).Stops t.fault :=
  fun _ => rfl

theorem emit (is : List Instruction) : (Emitter.emit is).Stops none :=
  fun _ => rfl

theorem append {a b : Emitter} {x y : Option Complaint} (ha : a.Stops x) (hb : b.Stops y) :
    Stops (a ++ b) (x.or y) := by
  refine Always.append (fun s t hs ht => ?_) ha hb
  rw [fault_append, hs, ht]

end Stops

end Emitter

theorem assignCode_fault (order : OperatorOrder) (target : Name) (index : Option Expr)
    (value : Expr) : (assignCode order f target index value).fault =
      offenceIn? f.declares (Stmt.assign target index value).mentions := by
  cases index with
  | none =>
      rw [assignCode, Frame.withCell_fault fun _ _ => fault_append_of _ _, value.code_fault order,
        Stmt.mentions, offenceIn?_cons]
  | some i =>
      have hcode (segment : Segment) (n : UInt16) : (i.code order f ++
          (.of [.push segment n, .command .add] ++ (value.code order f ++
            .of [.pop .temp 0, .pop .pointer 1, .push .temp 0, .pop .that 0]))).fault =
          offenceIn? f.declares (i.mentions ++ value.mentions) := by
        rw [fault_append, fault_of_append, fault_append_of, i.code_fault order,
          value.code_fault order, offenceIn?_append]
      rw [assignCode, Frame.withCell_fault hcode, Stmt.mentions, offenceIn?_cons]

theorem returnCode_fault (order : OperatorOrder) (value : Option Expr) :
    (returnCode order f value).fault = offenceIn? f.declares (Stmt.ret value).mentions := by
  cases value with
  | none => rfl
  | some v => rw [returnCode, fault_append_of, v.code_fault order, Stmt.mentions]

mutual

/-- The code of a statement is stopped at the first offence among its mentions. -/
theorem Stmt.emit_stops (o : Options) :
    (s : Stmt) → (s.emit o f).Stops (offenceIn? f.declares s.mentions)
  | .assign target index value => by
      rw [Stmt.emit, ← assignCode_fault o.operatorOrder]
      exact .ofCode _
  | .branch cond yes none => by
      rw [Stmt.emit, Stmt.mentions, offenceIn?_append, ← cond.code_fault o.operatorOrder]
      refine .withIfNumber fun n => ?_
      have hall := (Emitter.Stops.ofCode (cond.code o.operatorOrder f)).append
        ((Emitter.Stops.emit [.ifGoto (.numbered .ifTrue n), .goto (.numbered .ifFalse n),
          .label (.numbered .ifTrue n)]).append ((emitBranch_stops o yes).append
            (.emit [.label (.numbered .ifFalse n)])))
      rwa [Option.none_or, Option.or_none] at hall
  | .branch cond yes (some no) => by
      rw [Stmt.emit, Stmt.mentions, offenceIn?_append, offenceIn?_append,
        ← cond.code_fault o.operatorOrder]
      refine .withIfNumber fun n => ?_
      have hall := (Emitter.Stops.ofCode (cond.code o.operatorOrder f)).append
        ((Emitter.Stops.emit [.ifGoto (.numbered .ifTrue n), .goto (.numbered .ifFalse n),
          .label (.numbered .ifTrue n)]).append ((emitBranch_stops o yes).append
            ((Emitter.Stops.emit [.goto (.numbered .ifEnd n), .label (.numbered .ifFalse n)]).append
              ((emitBranch_stops o no).append (.emit [.label (.numbered .ifEnd n)])))))
      rwa [Option.none_or, Option.none_or, Option.or_none] at hall
  | .loop cond body => by
      rw [Stmt.emit, Stmt.mentions, offenceIn?_append, ← cond.code_fault o.operatorOrder]
      refine fun c => ?_
      have hall := (Emitter.Stops.emit [.label (.numbered .whileStart (c.get .loop))]).append
        ((Emitter.Stops.ofCode (cond.code o.operatorOrder f)).append
          ((Emitter.Stops.emit [.command .not, .ifGoto (.numbered .whileEnd (c.get .loop))]).append
            ((emitBlock_stops o body).append
              (.emit [.goto (.numbered .whileStart (c.get .loop)),
                .label (.numbered .whileEnd (c.get .loop))]))))
      rw [Option.none_or, Option.none_or, Option.or_none] at hall
      exact hall _
  | .call c => by
      rw [Stmt.emit, Stmt.mentions, ← c.code_fault o.operatorOrder,
        ← fault_append_of _ [Instruction.pop .temp 0]]
      exact .ofCode _
  | .ret value => by
      rw [Stmt.emit, ← returnCode_fault o.operatorOrder]
      exact .ofCode _
termination_by structural s => s

theorem emitBlock_stops (o : Options) :
    (ss : List Stmt) → (emitBlock o f ss).Stops (offenceIn? f.declares (blockMentions ss))
  | [] => .emit []
  | s :: ss => by
      rw [emitBlock, blockMentions, offenceIn?_append]
      exact (s.emit_stops o).append (emitBlock_stops o ss)
termination_by structural ss => ss

theorem emitBranch_stops (o : Options) :
    (ss : List Stmt) → (emitBranch o f ss).Stops (offenceIn? f.declares (blockMentions ss))
  | [] => .emit []
  | s :: ss => by
      rw [emitBranch, blockMentions, offenceIn?_append]
      exact Emitter.Stops.append (.inBranch (s.emit_stops o)) (emitBranch_stops o ss)
termination_by structural ss => ss

end

end JackCompiler
