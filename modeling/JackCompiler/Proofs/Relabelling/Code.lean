import JackCompiler.Proofs.Mentions.Trees
import JackCompiler.Proofs.Relabelling.Trees
import Mathlib.Logic.Function.Basic

/-!
# Code of relabelled trees

A look-up of a new name finds the variable that the old name found, in the same cell, provided that
different names stay different. So a relabelled tree is compiled to the same instructions, and stopped
where the original is, with the complaint about the new name at the new place. Only a receiver without
a variable shows in the code, as the name of a class: it has to keep its text.
-/

namespace JackCompiler

/-! ## Look-ups -/

section

variable (r : Relabelling)

/-- A variable with its new name. -/
def Variable.relabelled (v : Variable) : Variable :=
  { v with name := r.text v.name }

/-- A scope whose variables have their new names. -/
def Scope.relabelled (s : Scope) : Scope :=
  ⟨s.entries.map (Variable.relabelled r), s.counts⟩

/-- The variables in sight with their new names. -/
def Frame.relabelled (f : Frame) : Frame :=
  ⟨f.className, f.classScope.relabelled r, f.scope.relabelled r⟩

/-- Code that complains about the relabelled source. -/
def Code.relabelled (t : Code) : Code :=
  ⟨t.items, t.fault.map r.complaint⟩

/-- The emitter of the relabelled code. -/
def Emitter.relabelled (e : Emitter) : Emitter :=
  fun c => (Code.relabelled r (e c).1, (e c).2)

/-- Different names stay different, and a receiver keeps its name if it is that of a class. -/
structure Relabelling.Suits (f : Frame) (ms : List Mention) : Prop where
  injective : Function.Injective r.text
  receiver : ∀ n, .name .receiver n ∈ ms → f.lookup? n.text = none → r.text n.text = n.text

end

variable {r : Relabelling} {f : Frame} {ms : List Mention}

theorem Scope.find?_relabelled (hr : Function.Injective r.text) (s : Scope) (x : String) :
    (s.relabelled r).find? (r.text x) = (s.find? x).map (Variable.relabelled r) := by
  have hname : (fun v => v.name == r.text x) ∘ Variable.relabelled r = fun v => v.name == x := by
    funext v
    simp [Variable.relabelled, hr.eq_iff]
  rw [find?, find?, relabelled, ← Array.find?_toList, ← Array.find?_toList, Array.toList_map,
    List.find?_map, hname]

theorem Frame.lookup?_relabelled (hr : Function.Injective r.text) (f : Frame) (x : String) :
    (f.relabelled r).lookup? (r.text x) = (f.lookup? x).map (Variable.relabelled r) := by
  have hscope := f.scope.find?_relabelled hr x
  have hclassScope := f.classScope.find?_relabelled hr x
  rw [lookup?, lookup?, relabelled, hscope, hclassScope, Option.map_or]

/-! ## Expressions -/

namespace Code

theorem relabelled_append (a b : Code) :
    relabelled r (a ++ b) = relabelled r a ++ relabelled r b := by
  rcases a with ⟨xs, _ | e⟩ <;> rfl

theorem relabelled_of (is : List Instruction) : relabelled r (.of is) = .of is := rfl

end Code

section Expressions

open Code

/-- The code made from the cell of a variable is made from the same cell. -/
theorem Frame.withCell_relabelled (hr : Function.Injective r.text) {n : Name}
    {code code' : Segment → UInt16 → Code}
    (h : ∀ segment index, code' segment index = Code.relabelled r (code segment index)) :
    (f.relabelled r).withCell (r.renamed n) code' = Code.relabelled r (f.withCell n code) := by
  have hlookup : (f.relabelled r).lookup? (r.renamed n).text =
      (f.lookup? n.text).map (Variable.relabelled r) := f.lookup?_relabelled hr n.text
  rw [withCell, withCell, hlookup]
  cases f.lookup? n.text with
  | none => rfl
  | some v => exact h _ _

theorem textCode_relabelled (contents : String) (span : Span) :
    textCode contents (r.span span) = Code.relabelled r (textCode contents span) := by
  unfold textCode
  dsimp only
  split
  · rfl
  · split <;> rfl

theorem Expr.deferredOps_relabelled :
    (e : Expr) → (after : List Instruction) →
      (e.relabelled r).deferredOps after = e.deferredOps after
  | .operand _ _, _ => rfl
  | .binary _ _ _ rest, _ => rest.deferredOps_relabelled _
termination_by structural e => e

theorem argsRelabelled_length (es : List Expr) : (argsRelabelled r es).length = es.length := by
  rw [argsRelabelled_eq, List.length_map]

mutual

/-- The code of a relabelled expression. -/
theorem Expr.code_relabelled (hr : r.Suits f ms) (order : OperatorOrder) :
    (e : Expr) → e.mentions ⊆ ms →
      (e.relabelled r).code order (f.relabelled r) = Code.relabelled r (e.code order f)
  | .operand unary t, h => by
      rw [Expr.relabelled, Expr.code, Expr.code, t.code_relabelled hr order h, relabelled_append,
        relabelled_of]
  | .binary unary t op rest, h => by
      obtain ⟨ht, hrest⟩ := List.append_subset.mp h
      cases order with
      | deferred =>
          simp only [Expr.relabelled, Expr.code, t.code_relabelled hr .deferred ht,
            rest.operandsCode_relabelled hr .deferred hrest, rest.deferredOps_relabelled,
            relabelled_append, relabelled_of]
      | leftToRight =>
          simp only [Expr.relabelled, Expr.code, t.code_relabelled hr .leftToRight ht,
            rest.codeAfter_relabelled hr .leftToRight op hrest, relabelled_append, relabelled_of]
termination_by structural e => e

theorem Expr.operandsCode_relabelled (hr : r.Suits f ms) (order : OperatorOrder) :
    (e : Expr) → e.mentions ⊆ ms →
      (e.relabelled r).operandsCode order (f.relabelled r) =
        Code.relabelled r (e.operandsCode order f)
  | .operand _ t, h => t.code_relabelled hr order h
  | .binary _ t _ rest, h => by
      obtain ⟨ht, hrest⟩ := List.append_subset.mp h
      rw [Expr.relabelled, Expr.operandsCode, Expr.operandsCode, t.code_relabelled hr order ht,
        rest.operandsCode_relabelled hr order hrest, relabelled_append]
termination_by structural e => e

theorem Expr.codeAfter_relabelled (hr : r.Suits f ms) (order : OperatorOrder) (op : BinaryOp) :
    (e : Expr) → e.mentions ⊆ ms →
      (e.relabelled r).codeAfter order (f.relabelled r) op =
        Code.relabelled r (e.codeAfter order f op)
  | .operand unary t, h => by
      rw [Expr.relabelled, Expr.codeAfter, Expr.codeAfter, t.code_relabelled hr order h,
        relabelled_append, relabelled_of]
  | .binary unary t op' rest, h => by
      obtain ⟨ht, hrest⟩ := List.append_subset.mp h
      rw [Expr.relabelled, Expr.codeAfter, Expr.codeAfter, t.code_relabelled hr order ht,
        rest.codeAfter_relabelled hr order op' hrest, relabelled_append, relabelled_append,
        relabelled_of]
termination_by structural e => e

theorem Term.code_relabelled (hr : r.Suits f ms) (order : OperatorOrder) :
    (t : Term) → t.mentions ⊆ ms →
      (t.relabelled r).code order (f.relabelled r) = Code.relabelled r (t.code order f)
  | .integer _, _ | .word _, _ => rfl
  | .text contents span, _ => textCode_relabelled contents span
  | .variable n, _ => by
      rw [Term.relabelled, Term.code, Term.code]
      exact Frame.withCell_relabelled hr.injective fun _ _ => rfl
  | .element array index, h => by
      have hindex : index.mentions ⊆ ms := fun _ hm => h (List.mem_cons_of_mem _ hm)
      rw [Term.relabelled, Term.code, Term.code, index.code_relabelled hr order hindex]
      refine Frame.withCell_relabelled hr.injective fun segment base => ?_
      rw [relabelled_append, relabelled_of]
  | .call c, h => c.code_relabelled hr order h
  | .paren inner, h => inner.code_relabelled hr order h
termination_by structural t => t

theorem Call.code_relabelled (hr : r.Suits f ms) (order : OperatorOrder) :
    (c : Call) → c.mentions ⊆ ms →
      (c.relabelled r).code order (f.relabelled r) = Code.relabelled r (c.code order f)
  | .mk none n args, h => by
      have hargs : argsMentions args ⊆ ms := fun _ hm => h (List.mem_cons_of_mem _ hm)
      rw [Call.relabelled, Option.map_none, Call.code, Call.code, argsRelabelled_length,
        argsCode_relabelled hr order args hargs, relabelled_append, relabelled_append,
        relabelled_of, relabelled_of]
      rfl
  | .mk (some receiver) n args, h => by
      have hargs : argsMentions args ⊆ ms :=
        fun _ hm => h (List.mem_cons_of_mem _ (List.mem_cons_of_mem _ hm))
      have hlookup : (f.relabelled r).lookup? (r.renamed receiver).text =
          (f.lookup? receiver.text).map (Variable.relabelled r) :=
        f.lookup?_relabelled hr.injective receiver.text
      rw [Call.relabelled, Option.map_some, Call.code, Call.code, hlookup, argsRelabelled_length,
        argsCode_relabelled hr order args hargs]
      cases hreceiver : f.lookup? receiver.text with
      | some v => simp only [Option.map_some, relabelled_append, relabelled_of]; rfl
      | none =>
          have hkept := hr.receiver receiver (h List.mem_cons_self) hreceiver
          simp only [Option.map_none, relabelled_append, relabelled_of]
          rw [Relabelling.renamed, hkept]
          rfl
termination_by structural c => c

theorem argsCode_relabelled (hr : r.Suits f ms) (order : OperatorOrder) :
    (es : List Expr) → argsMentions es ⊆ ms →
      argsCode order (f.relabelled r) (argsRelabelled r es) = Code.relabelled r (argsCode order f es)
  | [], _ => rfl
  | e :: es, h => by
      obtain ⟨he, hes⟩ := List.append_subset.mp h
      rw [argsRelabelled, argsCode, argsCode, e.code_relabelled hr order he,
        argsCode_relabelled hr order es hes, relabelled_append]
termination_by structural es => es

end

end Expressions

/-! ## Statements -/

namespace Emitter

theorem relabelled_append (a b : Emitter) :
    relabelled r (a ++ b) = relabelled r a ++ relabelled r b := by
  funext c
  change (Code.relabelled r (append a b c).1, (append a b c).2) =
    append (relabelled r a) (relabelled r b) c
  unfold append relabelled
  rcases a c with ⟨⟨xs, _ | e⟩, c'⟩ <;> rfl

theorem relabelled_ofCode (t : Code) :
    relabelled r (ofCode t) = ofCode (Code.relabelled r t) := rfl

theorem relabelled_emit (is : List Instruction) : relabelled r (emit is) = emit is := rfl

theorem relabelled_withIfNumber (n : IfNumbering) (body : Nat → Emitter) :
    relabelled r (withIfNumber n body) = withIfNumber n fun k => relabelled r (body k) := by
  cases n <;> rfl

theorem relabelled_withNext (k : Numbered) (body : Nat → Emitter) :
    relabelled r (withNext k body) = withNext k fun n => relabelled r (body n) := rfl

theorem relabelled_inBranch (o : Options) (s : Stmt) (e : Emitter) :
    relabelled r (inBranch o s e) = inBranch o (s.relabelled r) (relabelled r e) := by
  match s with
  | .branch _ _ none | .branch _ _ (some _) =>
      rcases o with ⟨n, order⟩
      cases n with
      | unique => rfl
      | nested => exact (relabelled_append _ _).trans (congrArg _ (relabelled_append _ _))
  | .assign _ _ _ | .loop _ _ | .call _ | .ret _ =>
      rcases o with ⟨n, order⟩
      cases n <;> rfl

end Emitter

open Emitter

theorem assignCode_relabelled (hr : r.Suits f ms) (order : OperatorOrder) {target : Name}
    {index : Option Expr} {value : Expr} (h : (Stmt.assign target index value).mentions ⊆ ms) :
    assignCode order (f.relabelled r) (r.renamed target) (index.map (Expr.relabelled r))
        (value.relabelled r) =
      Code.relabelled r (assignCode order f target index value) := by
  refine Frame.withCell_relabelled hr.injective fun segment n => ?_
  cases index with
  | none =>
      have hvalue : value.mentions ⊆ ms := fun _ hm => h (List.mem_cons_of_mem _ hm)
      simp only [Option.map_none, value.code_relabelled hr order hvalue, Code.relabelled_append,
        Code.relabelled_of]
  | some i =>
      obtain ⟨hi, hvalue⟩ := List.append_subset.mp fun _ hm => h (List.mem_cons_of_mem _ hm)
      simp only [Option.map_some, i.code_relabelled hr order hi,
        value.code_relabelled hr order hvalue, Code.relabelled_append, Code.relabelled_of]

theorem returnCode_relabelled (hr : r.Suits f ms) (order : OperatorOrder) {value : Option Expr}
    (h : (Stmt.ret value).mentions ⊆ ms) :
    returnCode order (f.relabelled r) (value.map (Expr.relabelled r)) =
      Code.relabelled r (returnCode order f value) := by
  cases value with
  | none => rfl
  | some v =>
      rw [Option.map_some, returnCode, returnCode, v.code_relabelled hr order h,
        Code.relabelled_append, Code.relabelled_of]

mutual

/-- What a relabelled statement emits. -/
theorem Stmt.emit_relabelled (hr : r.Suits f ms) (o : Options) :
    (s : Stmt) → s.mentions ⊆ ms →
      (s.relabelled r).emit o (f.relabelled r) = Emitter.relabelled r (s.emit o f)
  | .assign target index value, h => by
      rw [Stmt.relabelled, Stmt.emit, Stmt.emit, assignCode_relabelled hr _ h, relabelled_ofCode]
  | .branch cond yes none, h => by
      obtain ⟨hcond, hyes⟩ := List.append_subset.mp h
      simp only [Stmt.relabelled, Stmt.emit, cond.code_relabelled hr _ hcond,
        emitBranch_relabelled hr o yes hyes, relabelled_withIfNumber, relabelled_append,
        relabelled_ofCode, relabelled_emit]
  | .branch cond yes (some no), h => by
      obtain ⟨hcond, hboth⟩ := List.append_subset.mp h
      obtain ⟨hyes, hno⟩ := List.append_subset.mp hboth
      simp only [Stmt.relabelled, Stmt.emit, cond.code_relabelled hr _ hcond,
        emitBranch_relabelled hr o yes hyes, emitBranch_relabelled hr o no hno,
        relabelled_withIfNumber, relabelled_append, relabelled_ofCode, relabelled_emit]
  | .loop cond body, h => by
      obtain ⟨hcond, hbody⟩ := List.append_subset.mp h
      simp only [Stmt.relabelled, Stmt.emit, cond.code_relabelled hr _ hcond,
        emitBlock_relabelled hr o body hbody, relabelled_withNext, relabelled_append,
        relabelled_ofCode, relabelled_emit]
  | .call c, h => by
      rw [Stmt.relabelled, Stmt.emit, Stmt.emit, c.code_relabelled hr _ h, relabelled_ofCode,
        Code.relabelled_append, Code.relabelled_of]
  | .ret value, h => by
      rw [Stmt.relabelled, Stmt.emit, Stmt.emit, returnCode_relabelled hr _ h, relabelled_ofCode]
termination_by structural s => s

theorem emitBlock_relabelled (hr : r.Suits f ms) (o : Options) :
    (ss : List Stmt) → blockMentions ss ⊆ ms →
      emitBlock o (f.relabelled r) (blockRelabelled r ss) = Emitter.relabelled r (emitBlock o f ss)
  | [], _ => rfl
  | s :: ss, h => by
      obtain ⟨hs, hss⟩ := List.append_subset.mp h
      rw [blockRelabelled, emitBlock, emitBlock, s.emit_relabelled hr o hs,
        emitBlock_relabelled hr o ss hss, relabelled_append]
termination_by structural ss => ss

theorem emitBranch_relabelled (hr : r.Suits f ms) (o : Options) :
    (ss : List Stmt) → blockMentions ss ⊆ ms →
      emitBranch o (f.relabelled r) (blockRelabelled r ss) = Emitter.relabelled r (emitBranch o f ss)
  | [], _ => rfl
  | s :: ss, h => by
      obtain ⟨hs, hss⟩ := List.append_subset.mp h
      rw [blockRelabelled, emitBranch, emitBranch, s.emit_relabelled hr o hs,
        emitBranch_relabelled hr o ss hss, ← relabelled_inBranch, relabelled_append]
termination_by structural ss => ss

end

end JackCompiler
