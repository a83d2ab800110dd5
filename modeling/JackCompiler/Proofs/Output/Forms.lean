import JackCompiler.Proofs.Mentions.Trees
import JackCompiler.Proofs.Output.Emission

/-!
# Forms of instructions

The code of a subroutine is made of few forms of instructions, and what they take from the source
they take from the mentions of the subroutine and from the variables in sight. Stopped code is made
of the same forms.

## Implementation notes

A fact about all instructions of a listing is a fact about the forms: the walk over trees is done
here once.
-/

namespace JackCompiler

/-- Every instruction of the code has a property. -/
def Code.All (p : Instruction → Prop) (t : Code) : Prop :=
  ∀ i ∈ t.items, p i

namespace Code.All

variable {p q : Instruction → Prop}

theorem mono {t : Code} (h : t.All p) (hpq : ∀ i, p i → q i) : t.All q :=
  fun i hi => hpq i (h i hi)

theorem append {a b : Code} (ha : a.All p) (hb : b.All p) : Code.All p (a ++ b) :=
  Trail.forall_items_append ha hb

theorem stopped (c : Complaint) : Code.All p (.stopped c) := by
  intro i hi
  cases hi

theorem nil : Code.All p (.of []) := by
  intro i hi
  cases hi

theorem cons {i : Instruction} {is : List Instruction} (hi : p i) (his : Code.All p (.of is)) :
    Code.All p (.of (i :: is)) := by
  intro j hj
  rcases List.mem_cons.mp hj with rfl | hj
  · exact hi
  · exact his j hj

theorem withCell {f : Frame} {n : Name} {code : Segment → UInt16 → Code}
    (h : ∀ v, f.lookup? n.text = some v → (code v.kind.segment v.index).All p) :
    (f.withCell n code).All p := by
  unfold Frame.withCell
  split
  · next v hv => exact h v hv
  · exact stopped _

end Code.All

/-- Whatever its counters, an emitter emits instructions with a property only. -/
def Emitter.All (p : Instruction → Prop) : Emitter → Prop :=
  Always (Code.All p)

theorem Emitter.All.append {p : Instruction → Prop} {a b : Emitter} (ha : a.All p) (hb : b.All p) :
    Emitter.All p (a ++ b) :=
  Always.append (fun _ _ => Code.All.append) ha hb

/-! ## Forms -/

/-- The subroutines of the library that the code of expressions calls. -/
def libraryNames : List String :=
  ["Math.multiply", "Math.divide", "String.new", "String.appendChar"]

namespace Instruction

variable (f : Frame) (ms : List Mention)

/-- The forms of instructions in the code of an expression, given the variables in sight and
mentions that include those of the expression. -/
inductive OfExpr : Instruction → Prop
  | constant {n : UInt16} : n.toNat ≤ maxConstant → OfExpr (.push .constant n)
  | number {n : UInt16} : .number n ∈ ms → OfExpr (.push .constant n)
  | command (c : Command) : OfExpr (.command c)
  | cell {x : String} {v : Variable} : f.lookup? x = some v → OfExpr (.push v.kind.segment v.index)
  | current : OfExpr (.push .pointer 0)
  | anchor : OfExpr (.pop .pointer 1)
  | element : OfExpr (.push .that 0)
  | library {name : String} {args : Nat} : name ∈ libraryNames → OfExpr (.call name args)
  | own {n : Name} {args : Nat} :
      .name .callee n ∈ ms → OfExpr (.call (f.className ++ "." ++ n.text) args)
  | object {x : String} {v : Variable} {n : Name} {args : Nat} :
      f.lookup? x = some v → .name .callee n ∈ ms →
      OfExpr (.call (v.type.text ++ "." ++ n.text) args)
  | qualified {receiver n : Name} {args : Nat} :
      .name .receiver receiver ∈ ms → .name .callee n ∈ ms →
      OfExpr (.call (receiver.text ++ "." ++ n.text) args)

/-- The forms of instructions in the code of statements. -/
inductive OfStmt : Instruction → Prop
  | expr {i : Instruction} : OfExpr f ms i → OfStmt i
  | setCell {x : String} {v : Variable} :
      f.lookup? x = some v → OfStmt (.pop v.kind.segment v.index)
  | pushTemp : OfStmt (.push .temp 0)
  | popTemp : OfStmt (.pop .temp 0)
  | setElement : OfStmt (.pop .that 0)
  | label (stem : LabelStem) (n : Nat) : OfStmt (.label (.numbered stem n))
  | goto (stem : LabelStem) (n : Nat) : OfStmt (.goto (.numbered stem n))
  | ifGoto (stem : LabelStem) (n : Nat) : OfStmt (.ifGoto (.numbered stem n))
  | ret : OfStmt .ret

end Instruction

open Instruction Code.All

variable {f : Frame} {ms : List Mention}

theorem pushConstant_ofExpr {n : Nat} (h : n ≤ maxConstant) : OfExpr f ms (pushConstant n) := by
  apply OfExpr.constant
  have hsize : n < UInt16.size := Nat.lt_of_le_of_lt h (by decide)
  rw [UInt16.toNat_ofNat_of_lt' hsize]
  exact h

theorem BinaryOp.instruction_ofExpr (op : BinaryOp) : OfExpr f ms op.instruction := by
  cases op with
  | mul | div => exact .library (by decide)
  | _ => exact .command _

theorem unaryCode_ofExpr (ops : List UnaryOp) : Code.All (OfExpr f ms) (.of (unaryCode ops)) := by
  intro i hi
  obtain ⟨op, -, rfl⟩ := List.mem_map.mp hi
  cases op with
  | neg | not => exact .command _

theorem Expr.deferredOps_ofExpr (e : Expr) {after : List Instruction}
    (h : Code.All (OfExpr f ms) (.of after)) :
    Code.All (OfExpr f ms) (.of (e.deferredOps after)) := by
  cases e with
  | operand unary t => exact append (unaryCode_ofExpr unary) h
  | binary unary t op rest =>
      have hunary : Code.All (OfExpr f ms) (.of (unaryCode unary ++ after)) :=
        append (unaryCode_ofExpr unary) h
      exact Expr.deferredOps_ofExpr rest (cons op.instruction_ofExpr hunary)
termination_by structural e

theorem WordConstant.code_ofExpr (c : WordConstant) : Code.All (OfExpr f ms) (.of c.code) := by
  cases c with
  | true => exact cons (pushConstant_ofExpr (Nat.zero_le _)) (cons (.command _) nil)
  | false | null => exact cons (pushConstant_ofExpr (Nat.zero_le _)) nil
  | this => exact cons .current nil

theorem textCode_ofExpr (contents : String) (span : Span) :
    (textCode contents span).All (OfExpr f ms) := by
  unfold textCode
  dsimp only
  split
  · exact stopped _
  · next hfit =>
    split
    · exact stopped _
    · next hlength =>
      refine cons (pushConstant_ofExpr (Nat.le_of_not_lt hlength))
        (cons (.library (by decide)) fun i hi => ?_)
      obtain ⟨c, hc, hi⟩ := List.mem_flatMap.mp hi
      have hle : c.toNat ≤ maxConstant := by
        simpa using List.find?_eq_none.mp hfit c hc
      simp only [List.mem_cons, List.not_mem_nil, or_false] at hi
      rcases hi with rfl | rfl
      · exact pushConstant_ofExpr hle
      · exact .library (by decide)

mutual

/-- The code of an expression is made of the forms for expressions. -/
theorem Expr.code_ofExpr (order : OperatorOrder) :
    (e : Expr) → e.mentions ⊆ ms → (e.code order f).All (OfExpr f ms)
  | .operand unary t, h => append (t.code_ofExpr order h) (unaryCode_ofExpr unary)
  | .binary unary t op rest, h => by
      obtain ⟨ht, hrest⟩ := List.append_subset.mp h
      cases order with
      | deferred =>
          refine append (t.code_ofExpr _ ht) (append (rest.operandsCode_ofExpr _ hrest) ?_)
          exact rest.deferredOps_ofExpr (cons op.instruction_ofExpr (unaryCode_ofExpr unary))
      | leftToRight =>
          exact append (t.code_ofExpr _ ht)
            (append (unaryCode_ofExpr unary) (rest.codeAfter_ofExpr _ op hrest))
termination_by structural e => e

theorem Expr.operandsCode_ofExpr (order : OperatorOrder) :
    (e : Expr) → e.mentions ⊆ ms → (e.operandsCode order f).All (OfExpr f ms)
  | .operand _ t, h => t.code_ofExpr order h
  | .binary _ t _ rest, h => by
      obtain ⟨ht, hrest⟩ := List.append_subset.mp h
      exact append (t.code_ofExpr order ht) (rest.operandsCode_ofExpr order hrest)
termination_by structural e => e

theorem Expr.codeAfter_ofExpr (order : OperatorOrder) (op : BinaryOp) :
    (e : Expr) → e.mentions ⊆ ms → (e.codeAfter order f op).All (OfExpr f ms)
  | .operand unary t, h =>
      append (t.code_ofExpr order h)
        (append (unaryCode_ofExpr unary) (cons op.instruction_ofExpr nil))
  | .binary unary t op' rest, h => by
      obtain ⟨ht, hrest⟩ := List.append_subset.mp h
      exact append (t.code_ofExpr order ht)
        (append (append (unaryCode_ofExpr unary) (cons op.instruction_ofExpr nil))
          (rest.codeAfter_ofExpr order op' hrest))
termination_by structural e => e

theorem Term.code_ofExpr (order : OperatorOrder) :
    (t : Term) → t.mentions ⊆ ms → (t.code order f).All (OfExpr f ms)
  | .integer _, h => cons (.number (h List.mem_cons_self)) nil
  | .text contents span, _ => textCode_ofExpr contents span
  | .word constant, _ => constant.code_ofExpr
  | .variable _, _ => withCell fun _ hv => cons (.cell hv) nil
  | .element _ index, h => withCell fun _ hv =>
      append (index.code_ofExpr order fun _ hm => h (List.mem_cons_of_mem _ hm))
        (cons (.cell hv) (cons (.command _) (cons .anchor (cons .element nil))))
  | .call c, h => c.code_ofExpr order h
  | .paren inner, h => inner.code_ofExpr order h
termination_by structural t => t

theorem Call.code_ofExpr (order : OperatorOrder) :
    (c : Call) → c.mentions ⊆ ms → (c.code order f).All (OfExpr f ms)
  | .mk none _ args, h =>
      append (cons .current nil)
        (append (argsCode_ofExpr order args fun _ hm => h (List.mem_cons_of_mem _ hm))
          (cons (.own (h List.mem_cons_self)) nil))
  | .mk (some receiver) n args, h => by
      have hargs : argsMentions args ⊆ ms :=
        fun _ hm => h (List.mem_cons_of_mem _ (List.mem_cons_of_mem _ hm))
      have hn : .name .callee n ∈ ms := h (List.mem_cons_of_mem _ List.mem_cons_self)
      unfold Call.code
      split
      · next v hv =>
        exact append (cons (.cell hv) nil)
          (append (argsCode_ofExpr order args hargs) (cons (.object hv hn) nil))
      · exact append (argsCode_ofExpr order args hargs)
          (cons (.qualified (h List.mem_cons_self) hn) nil)
termination_by structural c => c

theorem argsCode_ofExpr (order : OperatorOrder) :
    (es : List Expr) → argsMentions es ⊆ ms → (argsCode order f es).All (OfExpr f ms)
  | [], _ => nil
  | e :: es, h => by
      obtain ⟨he, hes⟩ := List.append_subset.mp h
      exact append (e.code_ofExpr order he) (argsCode_ofExpr order es hes)
termination_by structural es => es

end

/-! ## Statements -/

theorem Code.All.ofStmt {t : Code} (h : t.All (OfExpr f ms)) : t.All (OfStmt f ms) :=
  h.mono fun _ => .expr

theorem assignCode_ofStmt (order : OperatorOrder) {target : Name} {index : Option Expr}
    {value : Expr} (h : (Stmt.assign target index value).mentions ⊆ ms) :
    (assignCode order f target index value).All (OfStmt f ms) := by
  refine withCell fun v hv => ?_
  cases index with
  | none =>
      have hvalue : value.mentions ⊆ ms := fun _ hm => h (List.mem_cons_of_mem _ hm)
      exact append (value.code_ofExpr order hvalue).ofStmt (cons (.setCell hv) nil)
  | some i =>
      obtain ⟨hi, hvalue⟩ := List.append_subset.mp fun _ hm => h (List.mem_cons_of_mem _ hm)
      refine append (i.code_ofExpr order hi).ofStmt (append ?_
        (append (value.code_ofExpr order hvalue).ofStmt ?_))
      · exact cons (.expr (.cell hv)) (cons (.expr (.command _)) nil)
      · exact cons .popTemp (cons (.expr .anchor) (cons .pushTemp (cons .setElement nil)))

theorem returnCode_ofStmt (order : OperatorOrder) {value : Option Expr}
    (h : (Stmt.ret value).mentions ⊆ ms) : (returnCode order f value).All (OfStmt f ms) := by
  cases value with
  | none => exact cons (.expr (pushConstant_ofExpr (Nat.zero_le _))) (cons .ret nil)
  | some v => exact append (v.code_ofExpr order h).ofStmt (cons .ret nil)

mutual

/-- The code of a statement is made of the forms for statements. -/
theorem Stmt.emit_ofStmt (o : Options) :
    (s : Stmt) → s.mentions ⊆ ms → (s.emit o f).All (OfStmt f ms)
  | .assign target index value, h => by
      rw [Stmt.emit]
      exact .ofCode (assignCode_ofStmt _ h)
  | .branch cond yes none, h => by
      obtain ⟨hcond, hyes⟩ := List.append_subset.mp h
      rw [Stmt.emit]
      refine .withIfNumber fun n => ?_
      exact Emitter.All.append (.ofCode (cond.code_ofExpr _ hcond).ofStmt)
        (.append (.ofCode (cons (.ifGoto _ _) (cons (.goto _ _) (cons (.label _ _) nil))))
          (.append (emitBranch_ofStmt o yes hyes) (.ofCode (cons (.label _ _) nil))))
  | .branch cond yes (some no), h => by
      obtain ⟨hcond, hboth⟩ := List.append_subset.mp h
      obtain ⟨hyes, hno⟩ := List.append_subset.mp hboth
      rw [Stmt.emit]
      refine .withIfNumber fun n => ?_
      exact Emitter.All.append (.ofCode (cond.code_ofExpr _ hcond).ofStmt)
        (.append (.ofCode (cons (.ifGoto _ _) (cons (.goto _ _) (cons (.label _ _) nil))))
          (.append (emitBranch_ofStmt o yes hyes)
            (.append (.ofCode (cons (.goto _ _) (cons (.label _ _) nil)))
              (.append (emitBranch_ofStmt o no hno) (.ofCode (cons (.label _ _) nil))))))
  | .loop cond body, h => by
      obtain ⟨hcond, hbody⟩ := List.append_subset.mp h
      rw [Stmt.emit]
      refine fun c => ?_
      exact Emitter.All.append (.ofCode (cons (.label _ _) nil))
        (.append (.ofCode (cond.code_ofExpr _ hcond).ofStmt)
          (.append (.ofCode (cons (.expr (.command _)) (cons (.ifGoto _ _) nil)))
            (.append (emitBlock_ofStmt o body hbody)
              (.ofCode (cons (.goto _ _) (cons (.label _ _) nil)))))) _
  | .call c, h => by
      rw [Stmt.emit]
      exact .ofCode (append (c.code_ofExpr _ h).ofStmt (cons .popTemp nil))
  | .ret value, h => by
      rw [Stmt.emit]
      exact .ofCode (returnCode_ofStmt _ h)
termination_by structural s => s

theorem emitBlock_ofStmt (o : Options) :
    (ss : List Stmt) → blockMentions ss ⊆ ms → (emitBlock o f ss).All (OfStmt f ms)
  | [], _ => .ofCode nil
  | s :: ss, h => by
      obtain ⟨hs, hss⟩ := List.append_subset.mp h
      exact .append (s.emit_ofStmt o hs) (emitBlock_ofStmt o ss hss)
termination_by structural ss => ss

theorem emitBranch_ofStmt (o : Options) :
    (ss : List Stmt) → blockMentions ss ⊆ ms → (emitBranch o f ss).All (OfStmt f ms)
  | [], _ => .ofCode nil
  | s :: ss, h => by
      obtain ⟨hs, hss⟩ := List.append_subset.mp h
      exact .append (.inBranch (s.emit_ofStmt o hs)) (emitBranch_ofStmt o ss hss)
termination_by structural ss => ss

end

end JackCompiler
