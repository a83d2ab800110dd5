import JackCompiler.Proofs.Output.Functions
import JackCompiler.Proofs.Output.Induction

/-!
# Pieces of code

Every statement and every expression of a subroutine, however deep it is nested, is compiled to a
contiguous piece of the listing.

## Implementation notes

An expression stands in another one as an index, as an argument or in parentheses. The rest of a row
after an operator is not an expression of its own: from left to right its code needs the value of
what stands before it.
-/

namespace JackCompiler

mutual

/-- The expressions that stand inside an expression. -/
def Expr.inner : Expr → List Expr
  | .operand _ t => t.exprs
  | .binary _ t _ rest => t.exprs ++ rest.inner
termination_by structural e => e

/-- The expressions that stand in a term. -/
def Term.exprs : Term → List Expr
  | .element _ index => index :: index.inner
  | .call c => c.exprs
  | .paren inner => inner :: inner.inner
  | _ => []
termination_by structural t => t

/-- The expressions that stand in a call. -/
def Call.exprs : Call → List Expr
  | .mk _ _ args => argsExprs args
termination_by structural c => c

/-- Arguments and the expressions inside them. -/
def argsExprs : List Expr → List Expr
  | [] => []
  | e :: es => e :: (e.inner ++ argsExprs es)
termination_by structural es => es

end

/-- An expression and those inside it. -/
def Expr.all (e : Expr) : List Expr :=
  e :: e.inner

/-- The expressions of a statement that do not stand in a statement inside it. -/
def Stmt.exprs : Stmt → List Expr
  | .assign _ none value => value.all
  | .assign _ (some index) value => index.all ++ value.all
  | .branch cond _ _ => cond.all
  | .loop cond _ => cond.all
  | .call c => c.exprs
  | .ret none => []
  | .ret (some value) => value.all

/-- All expressions of a subroutine. -/
def Subroutine.exprs (s : Subroutine) : List Expr :=
  s.stmts.flatMap Stmt.exprs

/-! ## Expressions -/

/-- Code is a finished piece of other code whenever the other code is finished. -/
def Code.Part (a b : Code) : Prop :=
  b.fault = none → a.fault = none ∧ a.items <:+: b.items

namespace Code.Part

theorem refl (a : Code) : Code.Part a a :=
  fun h => ⟨h, List.infix_rfl⟩

theorem trans {a b c : Code} (hab : Code.Part a b) (hbc : Code.Part b c) : Code.Part a c := by
  intro hc
  obtain ⟨hb, hbitems⟩ := hbc hc
  obtain ⟨ha, haitems⟩ := hab hb
  exact ⟨ha, haitems.trans hbitems⟩

theorem first {x a : Code} (h : Code.Part x a) (b : Code) : Code.Part x (a ++ b) := by
  intro hab
  have ha := (Trail.fault_append_eq_none_iff.mp hab).1
  obtain ⟨hx, hitems⟩ := h ha
  rw [Trail.items_append ha]
  exact ⟨hx, hitems.trans List.infix_append_left⟩

theorem second {x b : Code} (a : Code) (h : Code.Part x b) : Code.Part x (a ++ b) := by
  intro hab
  obtain ⟨ha, hb⟩ := Trail.fault_append_eq_none_iff.mp hab
  obtain ⟨hx, hitems⟩ := h hb
  rw [Trail.items_append ha]
  exact ⟨hx, hitems.trans List.infix_append_right⟩

theorem withCell {x : Code} {f : Frame} {n : Name} {code : Segment → UInt16 → Code}
    (h : ∀ s i, Code.Part x (code s i)) : Code.Part x (f.withCell n code) := by
  intro hcode
  unfold Frame.withCell at hcode ⊢
  split at hcode
  · exact h _ _ hcode
  · cases hcode

end Code.Part

open Code.Part

mutual

/-- The code of an expression inside another one is a piece of the other's code. -/
theorem Expr.inner_part (order : OperatorOrder) (f : Frame) :
    (e : Expr) → {x : Expr} → x ∈ e.inner → Code.Part (x.code order f) (e.code order f)
  | .operand unary t, _, h => (t.exprs_part order f h).first _
  | .binary unary t op rest, _, h => by
      rcases List.mem_append.mp h with h | h
      · cases order with
        | deferred => exact (t.exprs_part .deferred f h).first _
        | leftToRight => exact (t.exprs_part .leftToRight f h).first _
      · cases order with
        | deferred =>
            rw [Expr.code_deferred_binary]
            exact second _ ((rest.inner_part .deferred f h).first _)
        | leftToRight => exact second _ (second _ (rest.inner_partAfter .leftToRight f op h))
termination_by structural e => e

theorem Expr.inner_partAfter (order : OperatorOrder) (f : Frame) (op : BinaryOp) :
    (e : Expr) → {x : Expr} → x ∈ e.inner → Code.Part (x.code order f) (e.codeAfter order f op)
  | .operand unary t, _, h => (t.exprs_part order f h).first _
  | .binary unary t op' rest, _, h => by
      rcases List.mem_append.mp h with h | h
      · exact (t.exprs_part order f h).first _
      · exact second _ (second _ (rest.inner_partAfter order f op' h))
termination_by structural e => e

theorem Term.exprs_part (order : OperatorOrder) (f : Frame) :
    (t : Term) → {x : Expr} → x ∈ t.exprs → Code.Part (x.code order f) (t.code order f)
  | .element _ index, _, h => by
      refine withCell fun _ _ => Code.Part.first ?_ _
      rcases List.mem_cons.mp h with rfl | h
      · exact .refl _
      · exact index.inner_part order f h
  | .call c, _, h => c.exprs_part order f h
  | .paren inner, _, h => by
      rcases List.mem_cons.mp h with rfl | h
      · exact .refl _
      · exact inner.inner_part order f h
  | .integer _, _, h | .text _ _, _, h | .word _, _, h | .variable _, _, h =>
      absurd h List.not_mem_nil
termination_by structural t => t

theorem Call.exprs_part (order : OperatorOrder) (f : Frame) :
    (c : Call) → {x : Expr} → x ∈ c.exprs → Code.Part (x.code order f) (c.code order f)
  | .mk none _ args, _, h => second _ ((argsExprs_part order f args h).first _)
  | .mk (some receiver) _ args, _, h => by
      unfold Call.code
      split
      · exact second _ ((argsExprs_part order f args h).first _)
      · exact (argsExprs_part order f args h).first _
termination_by structural c => c

theorem argsExprs_part (order : OperatorOrder) (f : Frame) :
    (es : List Expr) → {x : Expr} → x ∈ argsExprs es →
      Code.Part (x.code order f) (argsCode order f es)
  | [], _, h => absurd h List.not_mem_nil
  | e :: es, _, h => by
      rcases List.mem_cons.mp h with rfl | h
      · exact (Code.Part.refl _).first _
      · rcases List.mem_append.mp h with h | h
        · exact (e.inner_part order f h).first _
        · exact second _ (argsExprs_part order f es h)
termination_by structural es => es

end

theorem Expr.all_part (order : OperatorOrder) (f : Frame) {x e : Expr} (h : x ∈ e.all) :
    Code.Part (x.code order f) (e.code order f) := by
  rcases List.mem_cons.mp h with rfl | h
  · exact .refl _
  · exact e.inner_part order f h

/-! ## Statements -/

namespace Emitter

/-- Somewhere in finished code a statement is emitted as a whole. -/
def Holds (o : Options) (f : Frame) (code : List Instruction) (s : Stmt) : Prop :=
  ∃ c xs c', (s.emit o f).Emits c xs c' ∧ xs <:+: code

theorem Holds.mono {o : Options} {f : Frame} {xs ys : List Instruction} {s : Stmt}
    (h : Holds o f xs s) (hxy : xs <:+: ys) : Holds o f ys s := by
  obtain ⟨c, zs, c', hs, hzs⟩ := h
  exact ⟨c, zs, c', hs, hzs.trans hxy⟩

end Emitter

open Emitter

/-- A statement inside finished code is emitted as a piece of the code. -/
theorem holds_invariant (o : Options) (f : Frame) :
    EmissionInvariant o f fun ss _ code _ => ∀ x ∈ ss, Holds o f code x where
  nil := fun _ _ hx => absurd hx List.not_mem_nil
  append := by
    intro ss ts c d c' xs ys hxs hys
    exact List.forall_mem_append.mpr ⟨fun x hx => (hxs x hx).mono List.infix_append_left,
      fun x hx => (hys x hx).mono List.infix_append_right⟩
  plain := by
    intro s c code _ h
    exact List.forall_mem_singleton.mpr ⟨c, code, c, h, List.infix_rfl⟩
  branch := by
    intro cond yes c c' ys code hcode _ h hyes
    refine List.forall_mem_cons.mpr ⟨⟨c, code, c', h, List.infix_rfl⟩, fun x hx => ?_⟩
    exact (hyes x hx).mono (hcode ▸ infix_branchLines _ _ _)
  branchElse := by
    intro cond yes no c d c' ys zs code hcode _ h hyes hno
    have hpieces := infix_branchElseLines c.conditionals (cond.code o.operatorOrder f).items ys zs
    rw [← hcode] at hpieces
    refine List.forall_mem_cons.mpr ⟨⟨c, code, c', h, List.infix_rfl⟩, ?_⟩
    exact List.forall_mem_append.mpr ⟨fun x hx => (hyes x hx).mono hpieces.1,
      fun x hx => (hno x hx).mono hpieces.2⟩
  loop := by
    intro cond body c c' ys code hcode _ h hbody
    refine List.forall_mem_cons.mpr ⟨⟨c, code, c', h, List.infix_rfl⟩, fun x hx => ?_⟩
    exact (hbody x hx).mono (hcode ▸ infix_loopLines _ _ _)
  shift := fun _ h => h

theorem assignCode_part {order : OperatorOrder} {f : Frame} {target : Name} {index : Option Expr}
    {value x : Expr} (hx : x ∈ (Stmt.assign target index value).exprs) :
    Code.Part (x.code order f) (assignCode order f target index value) := by
  apply withCell
  intro s n
  cases index with
  | none => exact (Expr.all_part order f hx).first _
  | some index =>
      rcases List.mem_append.mp hx with hx | hx
      · exact (Expr.all_part order f hx).first _
      · exact second _ (second _ ((Expr.all_part order f hx).first _))

/-- An expression of a statement is compiled to a piece of the statement's code. -/
theorem Stmt.exprs_part {o : Options} {f : Frame} {s : Stmt} {c c' : Counters}
    {code : List Instruction} (h : (s.emit o f).Emits c code c') {x : Expr} (hx : x ∈ s.exprs) :
    Code.Part (x.code o.operatorOrder f) ⟨code, none⟩ := by
  have hpart : ∀ {e : Expr} {is : List Instruction}, x ∈ e.all →
      (e.code o.operatorOrder f).fault = none → (e.code o.operatorOrder f).items <:+: is →
      Code.Part (x.code o.operatorOrder f) ⟨is, none⟩ := by
    intro e is hx he his
    exact (Expr.all_part _ f hx).trans fun _ => ⟨he, his⟩
  cases s with
  | branch cond yes no =>
      cases no with
      | none =>
          obtain ⟨ys, hcond, -, rfl⟩ := emits_branch_none h
          exact hpart hx hcond List.infix_append_left
      | some no =>
          obtain ⟨ys, d, zs, hcond, -, -, rfl⟩ := emits_branch_some h
          exact hpart hx hcond List.infix_append_left
  | loop cond body =>
      obtain ⟨ys, hcond, -, rfl⟩ := emits_loop h
      exact hpart hx hcond (List.infix_cons List.infix_append_left)
  | assign target index value =>
      obtain ⟨hcode, rfl, -⟩ := emits_assign h
      exact fun _ => assignCode_part hx hcode
  | call call =>
      obtain ⟨hcode, rfl, -⟩ := emits_call h
      exact fun _ => (call.exprs_part _ f hx).first _ hcode
  | ret value =>
      obtain ⟨hcode, rfl, -⟩ := emits_ret h
      cases value with
      | none => exact absurd hx List.not_mem_nil
      | some value => exact fun _ => (Expr.all_part _ f hx).first _ hcode

/-! ## Classes -/

/-- The statements of a subroutine are compiled to a piece of the listing of the class. -/
theorem ClassTree.bodyCode_within {o : Options} {c : ClassTree} (h : (c.output o).fault = none)
    {s : Subroutine} (hs : s ∈ c.subroutines) :
    (c.bodyCode o s).items <:+: (c.output o).items := by
  rw [(output_finished h).1]
  apply List.infix_append_right.trans
  rw [List.flatMap_def]
  exact List.infix_of_mem_flatten (List.mem_map_of_mem hs)

theorem ClassTree.stmts_hold {o : Options} {c : ClassTree} (h : (c.output o).fault = none)
    {s : Subroutine} (hs : s ∈ c.subroutines) {x : Stmt} (hx : x ∈ s.stmts) :
    Holds o (c.frame s) (c.output o).items x := by
  have hbody := bodyCode_emits ((output_finished h).2 s hs)
  exact ((holds_invariant o _).block _ hbody x hx).mono (bodyCode_within h hs)

end JackCompiler
