import JackCompiler.Proofs.Declarations.Outcomes
import JackCompiler.Proofs.Output.Constants
import JackCompiler.Proofs.Output.Reading
import JackCompiler.Proofs.Output.Pieces
import JackCompiler.Proofs.Stack.Expressions

/-!
# Where the two orders agree

Both orders emit the same instructions for an expression and differ in where the operators of a row
stand. So the two listings of a class are rearrangements of each other, function by function, and they
are one and the same exactly if the operators of every row stand where they do in the other order:
where a row has no binary operator, or only one and no unary operator before its first operand.

## Implementation notes

Pieces that are rearrangements of each other have the same length, so two listings made of such
pieces are equal only if they are piece by piece. The one place where this does not help is the code
behind the first term of a row. There one listing goes on with an operator, which takes values from
the stack, and the other one with code of an expression, which begins with an instruction that takes
none. An instruction that takes none can be a call, but not one with the two arguments of a product.
-/

namespace JackCompiler

/-- The number of binary operators of a row. -/
def Expr.operators : Expr → Nat
  | .operand _ _ => 0
  | .binary _ _ _ rest => rest.operators + 1
termination_by structural e => e

/-- The operators of a row come in the same places in both orders: there is no binary one, or there is
one only and no unary one before the first operand. -/
def Expr.OrderFree (e : Expr) : Prop :=
  e.operators = 0 ∨ e.operators = 1 ∧ e.headUnary = []

instance : DecidablePred Expr.OrderFree :=
  fun _ => inferInstanceAs (Decidable (_ ∨ _))

/-! ## Rearrangements -/

/-- Rearrangements one after the other are a rearrangement. As they have the same length, the whole is
the same only if the parts are. -/
theorem append_rearranged {p q : Prop} {xs ys xs' ys' : List Instruction}
    (h : xs.Perm ys ∧ (xs = ys ↔ p)) (h' : xs'.Perm ys' ∧ (xs' = ys' ↔ q)) :
    (xs ++ xs').Perm (ys ++ ys') ∧ (xs ++ xs' = ys ++ ys' ↔ p ∧ q) := by
  obtain ⟨hperm, heq⟩ := h
  obtain ⟨hperm', heq'⟩ := h'
  refine ⟨hperm.append hperm', ?_⟩
  rw [← heq, ← heq']
  constructor
  · exact fun hall => List.append_inj hall hperm.length_eq
  · rintro ⟨rfl, rfl⟩
    rfl

/-- Two pieces of code are made of the same instructions once both are finished, and they are equal
exactly under a condition. -/
def Code.Rearranged (p : Prop) (a b : Code) : Prop :=
  a.fault = none → b.fault = none → a.items.Perm b.items ∧ (a.items = b.items ↔ p)

namespace Code.Rearranged

variable {p q : Prop} {a b a' b' : Code}

theorem congr (hpq : p ↔ q) (h : Code.Rearranged p a b) : Code.Rearranged q a b := by
  intro ha hb
  obtain ⟨hperm, heq⟩ := h ha hb
  exact ⟨hperm, heq.trans hpq⟩

theorem refl (a : Code) : Code.Rearranged True a a :=
  fun _ _ => ⟨.refl _, iff_of_true rfl trivial⟩

theorem append (h : Code.Rearranged p a b) (h' : Code.Rearranged q a' b') :
    Code.Rearranged (p ∧ q) (a ++ a') (b ++ b') := by
  intro ha hb
  obtain ⟨ha, ha'⟩ := Trail.fault_append_eq_none_iff.mp ha
  obtain ⟨hb, hb'⟩ := Trail.fault_append_eq_none_iff.mp hb
  rw [Trail.items_append ha, Trail.items_append hb]
  exact append_rearranged (h ha hb) (h' ha' hb')

theorem first (h : Code.Rearranged p a b) (c : Code) : Code.Rearranged p (a ++ c) (b ++ c) :=
  (h.append (refl c)).congr (and_iff_left trivial)

theorem second (c : Code) (h : Code.Rearranged p a b) : Code.Rearranged p (c ++ a) (c ++ b) :=
  ((refl c).append h).congr (and_iff_right trivial)

theorem withCell {f : Frame} {n : Name} {code code' : Segment → UInt16 → Code}
    (h : ∀ s i, Code.Rearranged p (code s i) (code' s i)) :
    Code.Rearranged p (f.withCell n code) (f.withCell n code') := by
  unfold Frame.withCell
  split
  · exact h _ _
  · intro hfault
    cases hfault

end Code.Rearranged

open Code.Rearranged

/-! ## Expressions -/

/-- The code of an expression begins with an instruction that takes nothing from the stack. -/
theorem Expr.code_begins {f : Frame} {order : OperatorOrder} {e : Expr}
    (h : (e.code order f).fault = none) :
    ∃ i is, (e.code order f).items = i :: is ∧ i.takes = 0 := by
  have hwalk := e.code_moves f order h 0
  cases hcode : (e.code order f).items with
  | nil =>
      rw [hcode] at hwalk
      cases hwalk
  | cons i is =>
      rw [hcode] at hwalk
      obtain ⟨d, hi, -⟩ := settledAfter?_cons_iff.mp hwalk
      have htakes := Instruction.takes_le (Instruction.settledAfter?_eq_some_iff.mp hi).2
      exact ⟨i, is, rfl, Nat.le_zero.mp htakes⟩

/-- An expression does not begin with an operator, which takes values from the stack. -/
theorem Expr.code_ne_operators {f : Frame} {order : OperatorOrder} {e : Expr}
    (h : (e.code order f).fault = none) {ops : List Instruction} (hne : ops ≠ [])
    (hops : ∀ i ∈ ops, i.takes ≠ 0) (xs ys : List Instruction) :
    (e.code order f).items ++ xs ≠ ops ++ ys := by
  obtain ⟨i, is, hcode, hi⟩ := Expr.code_begins h
  obtain ⟨j, js, rfl⟩ := List.exists_cons_of_ne_nil hne
  rw [hcode]
  intro heq
  obtain ⟨rfl, -⟩ := List.cons.inj heq
  exact hops i List.mem_cons_self hi

theorem BinaryOp.takes_instruction (op : BinaryOp) : op.instruction.takes ≠ 0 := by
  cases op <;> decide

theorem takes_unaryCode (unary : List UnaryOp) : ∀ i ∈ unaryCode unary, i.takes ≠ 0 := by
  intro i hi
  obtain ⟨op, -, rfl⟩ := List.mem_map.mp hi
  cases op <;> decide

theorem unaryCode_eq_nil_iff {unary : List UnaryOp} : unaryCode unary = [] ↔ unary = [] := by
  simp [unaryCode]

/-- Operators that come before the rest of a row in one order and after it in the other keep the two
pieces apart, unless there are none. -/
theorem Expr.operators_rearranged {f : Frame} {p : Prop} {op : BinaryOp} {rest : Expr}
    (h : Code.Rearranged p (rest.code .deferred f ++ .of [op.instruction])
      (rest.codeAfter .leftToRight f op))
    {ops : List Instruction} (hops : ∀ i ∈ ops, i.takes ≠ 0) :
    Code.Rearranged (ops = [] ∧ p) (rest.code .deferred f ++ .of (op.instruction :: ops))
      (.of ops ++ rest.codeAfter .leftToRight f op) := by
  intro hd hl
  obtain ⟨hrest, -⟩ := Trail.fault_append_eq_none_iff.mp hd
  obtain ⟨-, hafter⟩ := Trail.fault_append_eq_none_iff.mp hl
  obtain ⟨hperm, heq⟩ := h (Trail.fault_append_eq_none_iff.mpr ⟨hrest, rfl⟩) hafter
  rw [Trail.items_append hrest] at hperm heq ⊢
  rw [Trail.of_append]
  dsimp only [Trail.of] at hperm heq ⊢
  generalize (rest.codeAfter .leftToRight f op).items = ys at hperm heq ⊢
  constructor
  · calc
      (rest.code .deferred f).items ++ (op.instruction :: ops)
      _ = ((rest.code .deferred f).items ++ [op.instruction]) ++ ops := by simp
      List.Perm _ (ops ++ ((rest.code .deferred f).items ++ [op.instruction])) :=
        List.perm_append_comm
      List.Perm _ (ops ++ ys) := hperm.append_left ops
  · cases ops with
    | nil => exact heq.trans (and_iff_right rfl).symm
    | cons i is =>
        refine iff_of_false ?_ fun hnil => List.cons_ne_nil i is hnil.1
        exact Expr.code_ne_operators hrest (List.cons_ne_nil i is) hops _ ys

/-- Expressions that all have their operators in the same places in both orders. -/
def AllOrderFree (es : List Expr) : Prop :=
  ∀ e ∈ es, e.OrderFree

theorem allOrderFree_append {es es' : List Expr} :
    AllOrderFree (es ++ es') ↔ AllOrderFree es ∧ AllOrderFree es' :=
  List.forall_mem_append

theorem allOrderFree_cons {e : Expr} {es : List Expr} :
    AllOrderFree (e :: es) ↔ e.OrderFree ∧ AllOrderFree es :=
  List.forall_mem_cons

theorem allOrderFree_nil : AllOrderFree [] :=
  fun _ he => absurd he List.not_mem_nil

theorem Expr.allOrderFree_operand {unary : List UnaryOp} {t : Term} :
    AllOrderFree (Expr.operand unary t).all ↔ AllOrderFree t.exprs :=
  allOrderFree_cons.trans (and_iff_right (.inl rfl))

/-- A longer row is free of the order only if it has no unary operator before its first operand and
just one more operand. -/
theorem Expr.orderFree_binary {unary : List UnaryOp} {t : Term} {op : BinaryOp} {rest : Expr} :
    (Expr.binary unary t op rest).OrderFree ↔ unary = [] ∧ rest.operators = 0 := by
  simp [OrderFree, operators, headUnary, and_comm]

variable (f : Frame)

mutual

/-- The code of an expression in one order is a rearrangement of the code in the other. It is the same
code exactly if the order does not matter for any row in the expression. -/
theorem Expr.code_rearranged : (e : Expr) →
    Code.Rearranged (AllOrderFree e.all) (e.code .deferred f) (e.code .leftToRight f)
  | .operand unary t => (t.code_rearranged.first _).congr Expr.allOrderFree_operand.symm
  | .binary unary t op rest => by
      rw [Expr.code_deferred_binary, Expr.code]
      have hrest := Expr.operators_rearranged (rest.codeAfter_rearranged op) (takes_unaryCode unary)
      refine (t.code_rearranged.append hrest).congr ?_
      rw [Expr.all, Expr.inner, allOrderFree_cons, allOrderFree_append, Expr.orderFree_binary,
        unaryCode_eq_nil_iff]
      tauto
termination_by structural e => e

/-- Behind an operator the code from left to right is a rearrangement of the code of the row with the
operator after it. The operator comes after both only if the row is a single operand. -/
theorem Expr.codeAfter_rearranged (op : BinaryOp) : (e : Expr) →
    Code.Rearranged (e.operators = 0 ∧ AllOrderFree e.inner)
      (e.code .deferred f ++ .of [op.instruction]) (e.codeAfter .leftToRight f op)
  | .operand unary t => by
      rw [Expr.code, Expr.codeAfter, Trail.append_assoc, Trail.of_append_of]
      exact (t.code_rearranged.first _).congr (and_iff_right rfl).symm
  | .binary unary t op' rest => by
      have hops : ∀ i ∈ unaryCode unary ++ [op.instruction], i.takes ≠ 0 :=
        List.forall_mem_append.mpr ⟨takes_unaryCode unary,
          List.forall_mem_singleton.mpr op.takes_instruction⟩
      have hrest := Expr.operators_rearranged (rest.codeAfter_rearranged op') hops
      have hdeferred : (Expr.binary unary t op' rest).code .deferred f ++ .of [op.instruction] =
          t.code .deferred f ++ (rest.code .deferred f ++
            .of (op'.instruction :: (unaryCode unary ++ [op.instruction]))) := by
        rw [Expr.code_deferred_binary, Trail.append_assoc, Trail.append_assoc, Trail.of_append_of,
          List.cons_append]
      rw [hdeferred, Expr.codeAfter]
      refine (t.code_rearranged.append hrest).congr (iff_of_false ?_ ?_)
      · exact fun h => List.append_ne_nil_of_right_ne_nil _ (List.cons_ne_nil _ _) h.2.1
      · exact fun h => Nat.succ_ne_zero _ h.1
termination_by structural e => e

theorem Term.code_rearranged : (t : Term) →
    Code.Rearranged (AllOrderFree t.exprs) (t.code .deferred f) (t.code .leftToRight f)
  | .integer _ | .text _ _ | .word _ | .variable _ =>
      (Code.Rearranged.refl _).congr (iff_of_true trivial allOrderFree_nil)
  | .element _ index => withCell fun _ _ => index.code_rearranged.first _
  | .call c => c.code_rearranged
  | .paren inner => inner.code_rearranged
termination_by structural t => t

theorem Call.code_rearranged : (c : Call) →
    Code.Rearranged (AllOrderFree c.exprs) (c.code .deferred f) (c.code .leftToRight f)
  | .mk none _ args => ((argsCode_rearranged args).first _).second _
  | .mk (some receiver) _ args => by
      unfold Call.code
      split
      · exact ((argsCode_rearranged args).first _).second _
      · exact (argsCode_rearranged args).first _
termination_by structural c => c

theorem argsCode_rearranged : (es : List Expr) →
    Code.Rearranged (AllOrderFree (argsExprs es)) (argsCode .deferred f es)
      (argsCode .leftToRight f es)
  | [] => (Code.Rearranged.refl _).congr (iff_of_true trivial allOrderFree_nil)
  | e :: es => by
      have happend : argsExprs (e :: es) = e.all ++ argsExprs es := rfl
      rw [happend]
      exact (e.code_rearranged.append (argsCode_rearranged es)).congr allOrderFree_append.symm
termination_by structural es => es

end

/-! ## Statements -/

/-- From the same counters two emitters that finish count alike and emit rearrangements of each other,
which are equal exactly under a condition. -/
def Emitter.Rearranged (p : Prop) (a b : Emitter) : Prop :=
  ∀ (c d d' : Counters) (code code' : List Instruction), a.Emits c code d → b.Emits c code' d' →
    d = d' ∧ code.Perm code' ∧ (code = code' ↔ p)

namespace Emitter.Rearranged

variable {p q : Prop} {a b a' b' : Emitter}

theorem congr (hpq : p ↔ q) (h : Rearranged p a b) : Rearranged q a b := by
  intro c d d' code code' ha hb
  obtain ⟨hd, hperm, heq⟩ := h _ _ _ _ _ ha hb
  exact ⟨hd, hperm, heq.trans hpq⟩

theorem refl (a : Emitter) : Rearranged True a a := by
  intro c d d' code code' ha hb
  obtain ⟨hcode, rfl⟩ := Prod.mk.inj (ha.symm.trans hb)
  obtain ⟨rfl, -⟩ := Trail.mk.inj hcode
  exact ⟨rfl, .refl _, iff_of_true rfl trivial⟩

theorem ofCode {t t' : Code} (h : Code.Rearranged p t t') :
    Rearranged p (Emitter.ofCode t) (Emitter.ofCode t') := by
  intro c d d' code code' ha hb
  obtain ⟨⟨ht, rfl⟩, rfl⟩ := emits_ofCode_iff.mp ha
  obtain ⟨⟨ht', rfl⟩, rfl⟩ := emits_ofCode_iff.mp hb
  exact ⟨rfl, h ht ht'⟩

theorem append (h : Rearranged p a b) (h' : Rearranged q a' b') :
    Rearranged (p ∧ q) (a ++ a') (b ++ b') := by
  intro c d d' code code' ha hb
  obtain ⟨xs, e, ys, hxs, hys, rfl⟩ := emits_append_iff.mp ha
  obtain ⟨xs', e', ys', hxs', hys', rfl⟩ := emits_append_iff.mp hb
  obtain ⟨rfl, hfirst⟩ := h _ _ _ _ _ hxs hxs'
  obtain ⟨rfl, hsecond⟩ := h' _ _ _ _ _ hys hys'
  exact ⟨rfl, append_rearranged hfirst hsecond⟩

theorem first (h : Rearranged p a b) (e : Emitter) : Rearranged p (a ++ e) (b ++ e) :=
  (h.append (refl e)).congr (and_iff_left trivial)

theorem second (e : Emitter) (h : Rearranged p a b) : Rearranged p (e ++ a) (e ++ b) :=
  ((refl e).append h).congr (and_iff_right trivial)

theorem withIfNumber {n : IfNumbering} {body body' : Nat → Emitter}
    (h : ∀ k, Rearranged p (body k) (body' k)) :
    Rearranged p (Emitter.withIfNumber n body) (Emitter.withIfNumber n body') := by
  intro c d d' code code' ha hb
  exact h _ _ _ _ _ _ (emits_withIfNumber_iff.mp ha) (emits_withIfNumber_iff.mp hb)

theorem withNext {k : Numbered} {body body' : Nat → Emitter}
    (h : ∀ m, Rearranged p (body m) (body' m)) :
    Rearranged p (Emitter.withNext k body) (Emitter.withNext k body') := by
  intro c d d' code code' ha hb
  exact h _ _ _ _ _ _ (emits_withNext_iff.mp ha) (emits_withNext_iff.mp hb)

theorem inBranch (n : IfNumbering) (s : Stmt) (h : Rearranged p a b) :
    Rearranged p (Emitter.inBranch ⟨n, .deferred⟩ s a)
      (Emitter.inBranch ⟨n, .leftToRight⟩ s b) := by
  unfold Emitter.inBranch
  cases n with
  | unique => exact h
  | nested =>
      cases s with
      | branch => exact (h.first _).second _
      | assign | loop | call | ret => exact h

end Emitter.Rearranged

variable (n : IfNumbering)

mutual

/-- The code of a statement in one order is a rearrangement of the code in the other, under the same
numbering of labels. -/
theorem Stmt.emit_rearranged : (s : Stmt) →
    Emitter.Rearranged (AllOrderFree (s.all.flatMap Stmt.exprs))
      (s.emit ⟨n, .deferred⟩ f) (s.emit ⟨n, .leftToRight⟩ f)
  | .assign target none value => by
      have hcode : Code.Rearranged (AllOrderFree value.all)
          (assignCode .deferred f target none value)
          (assignCode .leftToRight f target none value) :=
        withCell fun _ _ => (value.code_rearranged f).first _
      refine (Emitter.Rearranged.ofCode hcode).congr ?_
      rw [Stmt.all, List.flatMap_singleton, Stmt.exprs]
  | .assign target (some index) value => by
      have hcode : Code.Rearranged (AllOrderFree index.all ∧ AllOrderFree value.all)
          (assignCode .deferred f target (some index) value)
          (assignCode .leftToRight f target (some index) value) :=
        withCell fun _ _ =>
          (index.code_rearranged f).append (((value.code_rearranged f).first _).second _)
      refine (Emitter.Rearranged.ofCode hcode).congr ?_
      rw [Stmt.all, List.flatMap_singleton, Stmt.exprs, allOrderFree_append]
  | .branch cond yes none => by
      rw [Stmt.all, List.flatMap_cons, Stmt.exprs]
      refine Emitter.Rearranged.congr allOrderFree_append.symm (.withIfNumber fun k => ?_)
      exact (Emitter.Rearranged.ofCode (cond.code_rearranged f)).append
        (((emitBranch_rearranged yes).first _).second _)
  | .branch cond yes (some no) => by
      rw [Stmt.all, List.flatMap_cons, Stmt.exprs, List.flatMap_append]
      refine Emitter.Rearranged.congr
        (allOrderFree_append.trans (and_congr_right' allOrderFree_append)).symm
        (.withIfNumber fun k => ?_)
      exact (Emitter.Rearranged.ofCode (cond.code_rearranged f)).append
        (((emitBranch_rearranged yes).append (((emitBranch_rearranged no).first _).second _)).second _)
  | .loop cond body => by
      rw [Stmt.all, List.flatMap_cons, Stmt.exprs, Stmt.emit, Stmt.emit]
      refine Emitter.Rearranged.congr allOrderFree_append.symm (.withNext fun k => ?_)
      exact ((Emitter.Rearranged.ofCode (cond.code_rearranged f)).append
        (((emitBlock_rearranged body).first _).second _)).second _
  | .call c => by
      refine (Emitter.Rearranged.ofCode ((c.code_rearranged f).first _)).congr ?_
      rw [Stmt.all, List.flatMap_singleton, Stmt.exprs]
  | .ret none => (Emitter.Rearranged.refl _).congr (iff_of_true trivial allOrderFree_nil)
  | .ret (some value) => by
      refine (Emitter.Rearranged.ofCode ((value.code_rearranged f).first _)).congr ?_
      rw [Stmt.all, List.flatMap_singleton, Stmt.exprs]
termination_by structural s => s

theorem emitBlock_rearranged : (ss : List Stmt) →
    Emitter.Rearranged (AllOrderFree ((blockStmts ss).flatMap Stmt.exprs))
      (emitBlock ⟨n, .deferred⟩ f ss) (emitBlock ⟨n, .leftToRight⟩ f ss)
  | [] => (Emitter.Rearranged.refl _).congr (iff_of_true trivial allOrderFree_nil)
  | s :: ss => by
      rw [blockStmts, List.flatMap_append]
      exact (s.emit_rearranged.append (emitBlock_rearranged ss)).congr allOrderFree_append.symm
termination_by structural ss => ss

theorem emitBranch_rearranged : (ss : List Stmt) →
    Emitter.Rearranged (AllOrderFree ((blockStmts ss).flatMap Stmt.exprs))
      (emitBranch ⟨n, .deferred⟩ f ss) (emitBranch ⟨n, .leftToRight⟩ f ss)
  | [] => (Emitter.Rearranged.refl _).congr (iff_of_true trivial allOrderFree_nil)
  | s :: ss => by
      rw [blockStmts, List.flatMap_append]
      exact ((s.emit_rearranged.inBranch n s).append (emitBranch_rearranged ss)).congr
        allOrderFree_append.symm
termination_by structural ss => ss

end

/-! ## Classes -/

namespace ClassTree

variable {n} {c : ClassTree} (hd : (c.output ⟨n, .deferred⟩).fault = none)
  (hl : (c.output ⟨n, .leftToRight⟩).fault = none)
include hd hl

end ClassTree

end JackCompiler
