import JackCompiler.Emit.Declaration

/-!
# Trees with other names and places

A relabelling gives the variables of a class other names and moves everything that keeps its place in
the source. It acts on a name by what the name is written for: the names of variables are new wherever
they are declared or used, and so are receivers, which may name variables. The names of classes and
subroutines, and those in types, stay as they are.
-/

namespace JackCompiler

/-- New texts for the names of variables and new offsets for the places of a source. -/
structure Relabelling where
  text : String → String
  offset : Nat → Nat

namespace Relabelling

variable (r : Relabelling)

/-- The place that a piece of a source is moved to. -/
def span (s : Span) : Span :=
  ⟨r.offset s.start, s.size⟩

/-- The name of a variable with its new text. -/
def renamed (n : Name) : Name :=
  ⟨r.text n.text, r.span n.span⟩

/-- A name that keeps its text. -/
def moved (n : Name) : Name :=
  ⟨n.text, r.span n.span⟩

/-- A cause about the variable by its new name. -/
def cause : Cause → Cause
  | .meaning (.undefinedVariable x) => .meaning (.undefinedVariable (r.text x))
  | c => c

/-- A complaint about the relabelled source. -/
def complaint (c : Complaint) : Complaint :=
  ⟨r.cause c.cause, r.offset c.offset⟩

end Relabelling

variable (r : Relabelling)

mutual

/-- A relabelled expression. -/
def Expr.relabelled : Expr → Expr
  | .operand unary t => .operand unary t.relabelled
  | .binary unary t op rest => .binary unary t.relabelled op rest.relabelled
termination_by structural e => e

/-- A relabelled term. -/
def Term.relabelled : Term → Term
  | .integer value => .integer value
  | .text contents span => .text contents (r.span span)
  | .word constant => .word constant
  | .variable n => .variable (r.renamed n)
  | .element array index => .element (r.renamed array) index.relabelled
  | .call c => .call c.relabelled
  | .paren inner => .paren inner.relabelled
termination_by structural t => t

/-- A relabelled call. -/
def Call.relabelled : Call → Call
  | .mk receiver n args => .mk (receiver.map r.renamed) (r.moved n) (argsRelabelled args)
termination_by structural c => c

/-- Relabelled arguments. -/
def argsRelabelled : List Expr → List Expr
  | [] => []
  | e :: es => e.relabelled :: argsRelabelled es
termination_by structural es => es

end

mutual

/-- A relabelled statement. -/
def Stmt.relabelled : Stmt → Stmt
  | .assign target index value =>
      .assign (r.renamed target) (index.map (Expr.relabelled r)) (value.relabelled r)
  | .branch cond yes none => .branch (cond.relabelled r) (blockRelabelled yes) none
  | .branch cond yes (some no) =>
      .branch (cond.relabelled r) (blockRelabelled yes) (some (blockRelabelled no))
  | .loop cond body => .loop (cond.relabelled r) (blockRelabelled body)
  | .call c => .call (c.relabelled r)
  | .ret value => .ret (value.map (Expr.relabelled r))
termination_by structural s => s

/-- The relabelled statements of a block. -/
def blockRelabelled : List Stmt → List Stmt
  | [] => []
  | s :: ss => s.relabelled :: blockRelabelled ss
termination_by structural ss => ss

end

/-- A relabelled line of class variables. -/
def ClassVariables.relabelled (v : ClassVariables) : ClassVariables :=
  { v with names := v.names.map r.renamed }

/-- A relabelled parameter. -/
def Parameter.relabelled (p : Parameter) : Parameter :=
  { p with name := r.renamed p.name }

/-- A relabelled line of local variables. -/
def LocalVariables.relabelled (v : LocalVariables) : LocalVariables :=
  { v with names := v.names.map r.renamed }

/-- The relabelled braces of a subroutine. -/
def Body.relabelled (b : Body) : Body :=
  ⟨b.locals.map (LocalVariables.relabelled r), blockRelabelled r b.block⟩

/-- A relabelled subroutine. -/
def Subroutine.relabelled (s : Subroutine) : Subroutine :=
  { s with
    name := r.moved s.name
    parameters := s.parameters.map (Parameter.relabelled r)
    body := s.body.relabelled r }

/-- A relabelled class. -/
def ClassTree.relabelled (c : ClassTree) : ClassTree :=
  ⟨r.moved c.name, c.vars.map (ClassVariables.relabelled r),
    c.subroutines.map (Subroutine.relabelled r)⟩

/-- A relabelled declaration. -/
def Declaration.relabelled (d : Declaration) : Declaration :=
  { d with name := r.renamed d.name }

theorem argsRelabelled_eq (es : List Expr) : argsRelabelled r es = es.map (Expr.relabelled r) := by
  induction es with
  | nil => rfl
  | cons e es ih => rw [argsRelabelled, ih, List.map_cons]

theorem blockRelabelled_eq (ss : List Stmt) :
    blockRelabelled r ss = ss.map (Stmt.relabelled r) := by
  induction ss with
  | nil => rfl
  | cons s ss ih => rw [blockRelabelled, ih, List.map_cons]

theorem ClassTree.declarations_relabelled (c : ClassTree) :
    (c.relabelled r).declarations = c.declarations.map (Declaration.relabelled r) := by
  simp only [declarations, relabelled, List.flatMap_map, List.map_flatMap,
    ClassVariables.relabelled, List.map_map]
  rfl

theorem Subroutine.declarations_relabelled (s : Subroutine) :
    (s.relabelled r).declarations = s.declarations.map (Declaration.relabelled r) := by
  simp only [declarations, relabelled, Body.relabelled, List.flatMap_map, List.map_flatMap,
    List.map_append, LocalVariables.relabelled, List.map_map]
  rfl

end JackCompiler
