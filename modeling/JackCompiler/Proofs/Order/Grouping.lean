import JackCompiler.Compiler

/-!
# Grouping to the right

The deferred order applies the operators of a row from its end. So a row in deferred order means the
same row from left to right with everything behind each operator in parentheses, and the unary
operators of an operand outside the parentheses that begin at it. A class whose rows are all grouped
in this way is compiled alike in both orders, and as the original class is in deferred order.
-/

namespace JackCompiler

mutual

/-- A row as a single operand: its first term and what stands behind the operator after it, grouped in
its turn, in parentheses behind the unary operators of the term. -/
def Expr.grouped : Expr → Expr
  | .operand unary t => .operand unary t.grouped
  | .binary unary t op rest => .operand unary (.paren (.binary [] t.grouped op rest.grouped))
termination_by structural e => e

/-- A term with all rows in it grouped. -/
def Term.grouped : Term → Term
  | .integer value => .integer value
  | .text contents span => .text contents span
  | .word constant => .word constant
  | .variable n => .variable n
  | .element array index => .element array index.grouped
  | .call c => .call c.grouped
  | .paren inner => .paren inner.grouped
termination_by structural t => t

/-- A call with all rows in it grouped. -/
def Call.grouped : Call → Call
  | .mk receiver n args => .mk receiver n (argsGrouped args)
termination_by structural c => c

/-- Arguments with all rows in them grouped. -/
def argsGrouped : List Expr → List Expr
  | [] => []
  | e :: es => e.grouped :: argsGrouped es
termination_by structural es => es

end

mutual

/-- A statement with all rows in it grouped. -/
def Stmt.grouped : Stmt → Stmt
  | .assign target none value => .assign target none value.grouped
  | .assign target (some index) value => .assign target (some index.grouped) value.grouped
  | .branch cond yes none => .branch cond.grouped (blockGrouped yes) none
  | .branch cond yes (some no) =>
      .branch cond.grouped (blockGrouped yes) (some (blockGrouped no))
  | .loop cond body => .loop cond.grouped (blockGrouped body)
  | .call c => .call c.grouped
  | .ret none => .ret none
  | .ret (some value) => .ret (some value.grouped)
termination_by structural s => s

/-- The statements of a block with all rows in them grouped. -/
def blockGrouped : List Stmt → List Stmt
  | [] => []
  | s :: ss => s.grouped :: blockGrouped ss
termination_by structural ss => ss

end

/-- A subroutine with all rows in it grouped. -/
def Subroutine.grouped (s : Subroutine) : Subroutine :=
  { s with body := ⟨s.body.locals, blockGrouped s.body.block⟩ }

/-- A class with all rows in it grouped. -/
def ClassTree.grouped (c : ClassTree) : ClassTree :=
  { c with subroutines := c.subroutines.map Subroutine.grouped }

-- The row `-7 - ~2 - 1` becomes `-(7 - ~(2 - 1))`.
example :
    (Expr.binary [.neg] (.integer 7) .sub
      (.binary [.not] (.integer 2) .sub (.operand [] (.integer 1)))).grouped =
    .operand [.neg] (.paren (.binary [] (.integer 7) .sub
      (.operand [.not] (.paren (.binary [] (.integer 2) .sub (.operand [] (.integer 1))))))) :=
  rfl

/-! ## Expressions -/

/-- A grouped row is one operand, so behind an operator its code is followed by the operator only. -/
theorem Expr.grouped_codeAfter (order : OperatorOrder) (f : Frame) (op : BinaryOp) (e : Expr) :
    e.grouped.codeAfter order f op = e.grouped.code order f ++ .of [op.instruction] := by
  cases e <;>
    rw [Expr.grouped, Expr.codeAfter, Expr.code, Trail.append_assoc, Trail.of_append_of]

/-- A row of two operands without unary operators before the first is compiled alike in both
orders, if the second is grouped. -/
theorem Expr.code_binary_grouped (order : OperatorOrder) (f : Frame) (t : Term) (op : BinaryOp)
    (rest : Expr) : (Expr.binary [] t op rest.grouped).code order f =
      t.code order f ++ (rest.grouped.code order f ++ .of [op.instruction]) := by
  cases order with
  | deferred => rw [Expr.code_deferred_binary]; rfl
  | leftToRight => rw [Expr.code, Expr.grouped_codeAfter]; rfl

theorem argsGrouped_length (es : List Expr) : (argsGrouped es).length = es.length := by
  induction es with
  | nil => rfl
  | cons e es ih => rw [argsGrouped, List.length_cons, List.length_cons, ih]

mutual

/-- In either order a grouped expression is compiled as the original one is in deferred order. -/
theorem Expr.code_grouped (order : OperatorOrder) (f : Frame) :
    (e : Expr) → e.grouped.code order f = e.code .deferred f
  | .operand unary t => by
      rw [Expr.grouped, Expr.code, Expr.code, t.code_grouped order]
  | .binary unary t op rest => by
      calc
        (Expr.binary unary t op rest).grouped.code order f
        _ = (Expr.binary [] t.grouped op rest.grouped).code order f ++ .of (unaryCode unary) := rfl
        _ = t.code .deferred f ++
              (rest.code .deferred f ++ .of (op.instruction :: unaryCode unary)) := by
          rw [Expr.code_binary_grouped, t.code_grouped order, rest.code_grouped order,
            Trail.append_assoc, Trail.append_assoc, Trail.of_append_of]
          rfl
        _ = (Expr.binary unary t op rest).code .deferred f :=
          (Expr.code_deferred_binary f unary t op rest).symm
termination_by structural e => e

theorem Term.code_grouped (order : OperatorOrder) (f : Frame) :
    (t : Term) → t.grouped.code order f = t.code .deferred f
  | .integer _ | .text _ _ | .word _ | .variable _ => rfl
  | .element array index => by
      rw [Term.grouped, Term.code, Term.code, index.code_grouped order]
  | .call c => c.code_grouped order f
  | .paren inner => inner.code_grouped order f
termination_by structural t => t

theorem Call.code_grouped (order : OperatorOrder) (f : Frame) :
    (c : Call) → c.grouped.code order f = c.code .deferred f
  | .mk none n args => by
      rw [Call.grouped, Call.code, Call.code, argsGrouped_code order f args, argsGrouped_length]
  | .mk (some receiver) n args => by
      rw [Call.grouped, Call.code, Call.code, argsGrouped_code order f args, argsGrouped_length]
termination_by structural c => c

theorem argsGrouped_code (order : OperatorOrder) (f : Frame) :
    (es : List Expr) → argsCode order f (argsGrouped es) = argsCode .deferred f es
  | [] => rfl
  | e :: es => by
      rw [argsGrouped, argsCode, argsCode, e.code_grouped order, argsGrouped_code order f es]
termination_by structural es => es

end

/-! ## Statements -/

theorem Emitter.inBranch_grouped (n : IfNumbering) (order : OperatorOrder) (s : Stmt) (e : Emitter) :
    Emitter.inBranch ⟨n, order⟩ s.grouped e = Emitter.inBranch ⟨n, .deferred⟩ s e := by
  match s with
  | .branch _ _ none | .branch _ _ (some _) => cases n <;> rfl
  | .assign _ none _ | .assign _ (some _) _ | .loop _ _ | .call _ | .ret none | .ret (some _) =>
      cases n <;> rfl

mutual

theorem Stmt.emit_grouped (n : IfNumbering) (order : OperatorOrder) (f : Frame) :
    (s : Stmt) → s.grouped.emit ⟨n, order⟩ f = s.emit ⟨n, .deferred⟩ f
  | .assign target none value => by
      rw [Stmt.grouped, Stmt.emit, Stmt.emit, assignCode, assignCode, value.code_grouped order]
  | .assign target (some index) value => by
      simp only [Stmt.grouped, Stmt.emit, assignCode, value.code_grouped order,
        index.code_grouped order]
  | .branch cond yes none => by
      rw [Stmt.grouped, Stmt.emit, Stmt.emit, cond.code_grouped order,
        emitBranch_grouped n order f yes]
  | .branch cond yes (some no) => by
      simp only [Stmt.grouped, Stmt.emit, cond.code_grouped order,
        emitBranch_grouped n order f yes, emitBranch_grouped n order f no]
  | .loop cond body => by
      rw [Stmt.grouped, Stmt.emit, Stmt.emit, cond.code_grouped order,
        emitBlock_grouped n order f body]
  | .call c => by
      rw [Stmt.grouped, Stmt.emit, Stmt.emit, c.code_grouped order]
  | .ret none => rfl
  | .ret (some value) => by
      rw [Stmt.grouped, Stmt.emit, Stmt.emit, returnCode, returnCode, value.code_grouped order]
termination_by structural s => s

/-- In either order the statements of a grouped block are emitted as the original ones are in
deferred order. -/
theorem emitBlock_grouped (n : IfNumbering) (order : OperatorOrder) (f : Frame) :
    (ss : List Stmt) →
      emitBlock ⟨n, order⟩ f (blockGrouped ss) = emitBlock ⟨n, .deferred⟩ f ss
  | [] => rfl
  | s :: ss => by
      rw [blockGrouped, emitBlock, emitBlock, s.emit_grouped n order, emitBlock_grouped n order f ss]
termination_by structural ss => ss

theorem emitBranch_grouped (n : IfNumbering) (order : OperatorOrder) (f : Frame) :
    (ss : List Stmt) →
      emitBranch ⟨n, order⟩ f (blockGrouped ss) = emitBranch ⟨n, .deferred⟩ f ss
  | [] => rfl
  | s :: ss => by
      rw [blockGrouped, emitBranch, emitBranch, s.emit_grouped n order,
        Emitter.inBranch_grouped, emitBranch_grouped n order f ss]
termination_by structural ss => ss

end

/-! ## Classes -/

namespace Generator

theorem subroutine_grouped (n : IfNumbering) (order : OperatorOrder) (s : Subroutine)
    (g : Generator) : g.subroutine ⟨n, order⟩ s.grouped = g.subroutine ⟨n, .deferred⟩ s := by
  have hemit (g : Generator) :
      g.emitSubroutine ⟨n, order⟩ s.grouped = g.emitSubroutine ⟨n, .deferred⟩ s := by
    rw [emitSubroutine, emitSubroutine, Subroutine.grouped, emitBlock_grouped]
  simp only [subroutine, hemit]
  rfl

theorem subroutines_grouped (n : IfNumbering) (order : OperatorOrder) (ss : List Subroutine)
    (g : Generator) : g.subroutines ⟨n, order⟩ (ss.map Subroutine.grouped) =
      g.subroutines ⟨n, .deferred⟩ ss := by
  induction ss generalizing g with
  | nil => rfl
  | cons s ss ih => simp only [List.map_cons, subroutines, subroutine_grouped, ih]

/-- In either order a grouped class leaves the trail, and the state of the generator, that the
original class leaves in deferred order. -/
theorem compile_grouped (n : IfNumbering) (order : OperatorOrder) (c : ClassTree) (g : Generator) :
    g.compile ⟨n, order⟩ c.grouped = g.compile ⟨n, .deferred⟩ c := by
  have hdeclarations : c.grouped.declarations = c.declarations := rfl
  have hname : c.grouped.name = c.name := rfl
  have hsubroutines : c.grouped.subroutines = c.subroutines.map Subroutine.grouped := rfl
  simp only [compile, hdeclarations, hname, hsubroutines, subroutines_grouped]

end Generator

namespace Compiler

/-- Deferred order is the order from left to right on the class whose rows are grouped to the right:
whatever a compiler has compiled before and whatever its sink does, it reports and writes the same of
both. On the grouped class the two orders coincide. -/
theorem compile_groupedRight (source : String) (n : IfNumbering) (g : Generator) (sink : Sink)
    (c : ClassTree) :
    let deferred : Compiler := ⟨source, ⟨n, .deferred⟩, g, sink⟩
    let leftToRight : Compiler := ⟨source, ⟨n, .leftToRight⟩, g, sink⟩
    ((leftToRight.compile c.grouped).1 = (deferred.compile c).1 ∧
      (leftToRight.compile c.grouped).2.sink = (deferred.compile c).2.sink) ∧
    (leftToRight.compile c.grouped).1 = (deferred.compile c.grouped).1 ∧
      (leftToRight.compile c.grouped).2.sink = (deferred.compile c.grouped).2.sink := by
  simp only [compile, Generator.compile_grouped, and_self]

end Compiler

end JackCompiler
