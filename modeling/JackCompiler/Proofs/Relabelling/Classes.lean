import JackCompiler.Proofs.Declarations.Scopes
import JackCompiler.Proofs.Delivery.Reuse
import JackCompiler.Proofs.Delivery.Writers
import JackCompiler.Proofs.Relabelling.Code
import Mathlib.Logic.Equiv.Basic

/-!
# Classes with other names of variables

The variables of a relabelled class take the numbers that those of the class take, and it is compiled
to the same instructions. So the names of variables do not show in what is written, whatever the
writer does, and show in complaints only as the names of undefined variables.
-/

namespace JackCompiler

variable {r : Relabelling}

/-! ## Declarations -/

namespace Scope

theorem relabelled_empty : Scope.relabelled r .empty = .empty := by
  rw [relabelled, empty, Array.map_empty]

/-- New names are declared as the old ones are. -/
theorem declareOnto_relabelled (ds : List Declaration) (s : Scope) (records records' : List Record) :
    ((s.relabelled r).declareOnto (ds.map (Declaration.relabelled r)) records').1.fault =
        (s.declareOnto ds records).1.fault.map r.complaint ∧
      ((s.relabelled r).declareOnto (ds.map (Declaration.relabelled r)) records').2 =
        (s.declareOnto ds records).2.relabelled r := by
  induction ds generalizing s records records' with
  | nil => exact ⟨rfl, rfl⟩
  | cons d ds ih =>
      have hkind : (d.relabelled r).kind = d.kind := rfl
      have hcount (k : VariableKind) : (s.relabelled r).count k = s.count k := rfl
      rw [List.map_cons, declareOnto, declareOnto, hkind]
      by_cases h : s.count d.kind < maxVariables
      · rw [define_of_lt h, define_of_lt (s := s.relabelled r) h]
        have hscope (v : Variable) : Scope.relabelled r ⟨s.entries.push v, s.counts.increment d.kind⟩ =
            ⟨(s.relabelled r).entries.push (v.relabelled r),
              (s.relabelled r).counts.increment d.kind⟩ := by
          rw [Scope.relabelled, Array.map_push]
          rfl
        have hrest := ih ⟨s.entries.push
          ⟨d.name.text, d.type, d.kind, UInt16.ofNat (s.count d.kind)⟩, s.counts.increment d.kind⟩
        rw [hscope] at hrest
        exact hrest _ _
      · rw [define_of_not_lt h, define_of_not_lt (s := s.relabelled r) h]
        exact ⟨rfl, rfl⟩

theorem declare_relabelled (s : Scope) (ds : List Declaration) :
    ((s.relabelled r).declare (ds.map (Declaration.relabelled r))).1.fault =
        (s.declare ds).1.fault.map r.complaint ∧
      ((s.relabelled r).declare (ds.map (Declaration.relabelled r))).2 =
        (s.declare ds).2.relabelled r :=
  declareOnto_relabelled ds s [] []

end Scope

/-- A relabelling that a class allows: different names stay different, the current object keeps its
name, and so does a receiver that names no variable at one of its places. -/
structure Relabelling.Allowed (r : Relabelling) (c : ClassTree) : Prop where
  injective : Function.Injective r.text
  this : r.text "this" = "this"
  receiver : ∀ s ∈ c.subroutines, ∀ n, .name .receiver n ∈ s.mentions →
    c.declares s n.text = false → r.text n.text = n.text

namespace ClassTree

variable {o : Options} {c : ClassTree} {s : Subroutine}

/-- The hidden argument of a method keeps its name. -/
theorem kind_scope_relabelled (h : r.text "this" = "this") (k : SubroutineKind)
    (className : String) : (k.scope className).relabelled r = k.scope className := by
  cases k with
  | constructor | function => exact Scope.relabelled_empty
  | method =>
      have hlt : Scope.empty.count .argument < maxVariables := by decide
      rw [SubroutineKind.scope, Scope.define_of_lt hlt]
      simp [Scope.relabelled, Variable.relabelled, h, Scope.empty]

theorem scope_relabelled (c : ClassTree) : (c.relabelled r).scope = c.scope.relabelled r := by
  have hdeclared := (Scope.declare_relabelled (r := r) .empty c.declarations).2
  rw [Scope.relabelled_empty, ← declarations_relabelled] at hdeclared
  exact hdeclared

theorem declared_relabelled (h : r.text "this" = "this") (c : ClassTree) (s : Subroutine) :
    ((c.relabelled r).declared (s.relabelled r)).1.fault =
        (c.declared s).1.fault.map r.complaint ∧
      ((c.relabelled r).declared (s.relabelled r)).2 = (c.declared s).2.relabelled r := by
  have hscope := kind_scope_relabelled h s.kind c.name.text
  have hdeclared := Scope.declare_relabelled (r := r) (s.kind.scope c.name.text) s.declarations
  rw [hscope, ← Subroutine.declarations_relabelled] at hdeclared
  exact hdeclared

theorem frame_relabelled (h : r.text "this" = "this") (c : ClassTree) (s : Subroutine) :
    (c.relabelled r).frame (s.relabelled r) = (c.frame s).relabelled r := by
  rw [frame, scope_relabelled, (declared_relabelled h c s).2]
  rfl

theorem opening_relabelled (h : r.text "this" = "this") (c : ClassTree) (s : Subroutine) :
    (c.relabelled r).opening (s.relabelled r) = c.opening s := by
  rw [opening, opening, frame_relabelled h, scope_relabelled]
  rfl

/-- Where all variables could be declared, a receiver without a variable in sight is one that is not
declared. -/
theorem suits (hr : r.Allowed c) (hs : s ∈ c.subroutines)
    (hclass : (Scope.empty.declare c.declarations).1.fault = none)
    (hdeclared : (c.declared s).1.fault = none) : r.Suits (c.frame s) s.mentions := by
  refine ⟨hr.injective, fun n hn hlookup => ?_⟩
  by_cases hthis : n.text = "this"
  · rw [hthis, hr.this]
  · apply hr.receiver s hs n hn
    rw [frame_lookup? hclass hdeclared hthis, Option.map_eq_none_iff] at hlookup
    rw [← meaning?_isSome, hlookup]
    rfl

theorem functionCode_relabelled (hr : r.Allowed c) (hs : s ∈ c.subroutines)
    (hclass : (Scope.empty.declare c.declarations).1.fault = none) :
    (c.relabelled r).functionCode o (s.relabelled r) = Code.relabelled r (c.functionCode o s) := by
  have hfault := (declared_relabelled hr.this c s).1
  rw [functionCode, functionCode, hfault]
  cases hdeclared : (c.declared s).1.fault with
  | some e => rfl
  | none =>
      have hbody : blockMentions s.body.block ⊆ s.mentions := fun m hm =>
        List.mem_cons_of_mem _ (List.mem_append_right _ hm)
      have hblock := emitBlock_relabelled (suits hr hs hclass hdeclared) o s.body.block hbody
      have hcode : (c.relabelled r).bodyCode o (s.relabelled r) =
          Code.relabelled r (c.bodyCode o s) := by
        rw [bodyCode, frame_relabelled hr.this]
        exact congrArg (fun e => (e .zero).1) hblock
      rw [opening_relabelled hr.this, hcode, Code.relabelled_append, Code.relabelled_append]
      rfl

theorem relabelled_join (ts : List Code) :
    Code.relabelled r (.join ts) = .join (ts.map (Code.relabelled r)) := by
  induction ts with
  | nil => rfl
  | cons t ts ih => rw [Trail.join_cons, Code.relabelled_append, ih, List.map_cons, Trail.join_cons]

/-- A relabelled class is compiled to the instructions of the class, and stopped where it is. -/
theorem output_relabelled (hr : r.Allowed c) :
    (c.relabelled r).output o = Code.relabelled r (c.output o) := by
  have hfault := (Scope.declare_relabelled (r := r) .empty c.declarations).1
  rw [Scope.relabelled_empty, ← declarations_relabelled] at hfault
  rw [output_eq, output_eq, Code.relabelled_append, relabelled_join, hfault]
  cases hclass : (Scope.empty.declare c.declarations).1.fault with
  | some e => rfl
  | none =>
      have hcode : (c.relabelled r).subroutines.map ((c.relabelled r).functionCode o) =
          (c.subroutines.map (c.functionCode o)).map (Code.relabelled r) := by
        rw [relabelled, List.map_map, List.map_map]
        exact List.map_congr_left fun s hs => functionCode_relabelled hr hs hclass
      rw [hcode]
      rfl

end ClassTree

/-! ## Renaming -/

/-- A failure with the new name of the variable that it is about. -/
def Failure.renamed (ρ : String → String) : Failure → Failure
  | diagnosed d => diagnosed { d with cause := Relabelling.cause ⟨ρ, id⟩ d.cause }
  | unplaced c => unplaced { c with cause := Relabelling.cause ⟨ρ, id⟩ c.cause }
  | torn => torn
  | sink e => sink e
  | tableFull => tableFull

/-- A class with other names of variables: where they are declared, where they are used and as
receivers of calls. -/
def ClassTree.renamed (ρ : String → String) (c : ClassTree) : ClassTree :=
  c.relabelled ⟨ρ, id⟩

theorem Complaint.failure_renamed (ρ : String → String) (c : Complaint) (source : String) :
    (Relabelling.complaint ⟨ρ, id⟩ c).failure source = (c.failure source).renamed ρ := by
  have hlocation : (Relabelling.complaint ⟨ρ, id⟩ c).diagnosis? source =
      (c.diagnosis? source).map fun d => { d with cause := Relabelling.cause ⟨ρ, id⟩ d.cause } := by
    rw [diagnosis?, diagnosis?, Option.map_map]
    rfl
  rw [failure, failure, hlocation]
  cases c.diagnosis? source <;> rfl

/-- Renamed code is settled as the code is, and complains about the new name. -/
theorem Writer.settle_renamed {σ : Type} (w : Writer σ) (s : σ) (source : String)
    (ρ : String → String) (t : Code) : w.settle s source (Code.relabelled ⟨ρ, id⟩ t) =
      ((w.settle s source t).1.mapError (Failure.renamed ρ), (w.settle s source t).2) := by
  have hitems : (Code.relabelled ⟨ρ, id⟩ t).items = t.items := rfl
  have hfault : (Code.relabelled ⟨ρ, id⟩ t).fault = t.fault.map (Relabelling.complaint ⟨ρ, id⟩) := rfl
  rw [settle, settle, hitems, hfault]
  rcases w.writeAll s (t.items.flatMap Instruction.pieces) with ⟨e | ⟨⟩, s'⟩
  · rfl
  · cases t.fault with
    | some c =>
        dsimp only [Option.map_some]
        rw [c.failure_renamed]
        rfl
    | none =>
        dsimp only [Option.map_none]
        rw [finish]
        rcases w.flush s' with ⟨e | ⟨⟩, s''⟩ <;> rfl

/-- The names of variables do not show in what is written. Whatever was compiled before and whatever
the sink does, a class with other names of variables is written as the class is, and the outcome is
the same up to the name of an undefined variable, at the same place. -/
theorem Compiler.compile_renamed (compiler : Compiler) {ρ : String → String} {c : ClassTree}
    (hinjective : Function.Injective ρ) (hthis : ρ "this" = "this")
    (hreceiver : ∀ s ∈ c.subroutines, ∀ n, .name .receiver n ∈ s.mentions →
      c.declares s n.text = false → ρ n.text = n.text) :
    (compiler.compile (c.renamed ρ)).2.sink = (compiler.compile c).2.sink ∧
      (compiler.compile (c.renamed ρ)).1.outcome =
        (compiler.compile c).1.outcome.mapError (Failure.renamed ρ) := by
  have hending (t : ClassTree) :
      ((compiler.compile t).1.outcome, (compiler.compile t).2.sink) =
        Sink.writer.settle compiler.sink compiler.source (t.output compiler.options) := by
    calc ((compiler.compile t).1.outcome, (compiler.compile t).2.sink)
      _ = ending (Sink.writer.deliver compiler.sink compiler.source
            (compiler.generator.compile compiler.options t).1) := rfl
      _ = Sink.writer.settle compiler.sink compiler.source
            (compiler.generator.compile compiler.options t).1.instructions :=
        Sink.writer.deliver_eq _ _ _
      _ = Sink.writer.settle compiler.sink compiler.source (t.output compiler.options) := by
        rw [Generator.compile_fst]
        rfl
  have hrenamed := hending (c.renamed ρ)
  rw [ClassTree.renamed, ClassTree.output_relabelled ⟨hinjective, hthis, hreceiver⟩,
    Writer.settle_renamed, ← hending c] at hrenamed
  obtain ⟨houtcome, hsink⟩ := Prod.mk.inj hrenamed
  exact ⟨hsink, houtcome⟩

/-- A class with a method whose parameter hides a field, that calls a method of the parameter and a
function of another class, and then sets a variable that nothing declares. -/
def hidingClass : ClassTree :=
  let name (text : String) : Name := ⟨text, ⟨0, 1⟩⟩
  { name := name "Main"
    vars := [⟨.field, .object "Point", [name "a", name "b"]⟩]
    subroutines := [
      { kind := .method
        returns := none
        name := name "run"
        parameters := [⟨.object "Point", name "a"⟩]
        body := ⟨[], [
          .call (.mk (some (name "a")) (name "move") [.operand [] (.variable (name "b"))]),
          .call (.mk (some (name "Output")) (name "printInt") []),
          .assign (name "c") none (.operand [] (.variable (name "a")))]⟩ }] }

/-- The declared name and the one that nothing declares change places. -/
theorem hidingClass_renamed :
    let compiler := Compiler.new "" .standard (.empty none false)
    let ρ := Equiv.swap "a" "c"
    Function.Injective ρ ∧ ρ "this" = "this" ∧
      (∀ s ∈ hidingClass.subroutines, ∀ n, .name .receiver n ∈ s.mentions →
        hidingClass.declares s n.text = false → ρ n.text = n.text) ∧
      (hidingClass.output .standard).fault = some ⟨.meaning (.undefinedVariable "c"), 0⟩ ∧
      ((hidingClass.renamed ρ).output .standard).fault =
        some ⟨.meaning (.undefinedVariable "a"), 0⟩ ∧
      (compiler.compile (hidingClass.renamed ρ)).2.sink = (compiler.compile hidingClass).2.sink ∧
      (compiler.compile (hidingClass.renamed ρ)).1.outcome =
        (compiler.compile hidingClass).1.outcome.mapError (Failure.renamed ρ) := by
  have hreceiver : ∀ s ∈ hidingClass.subroutines, ∀ n, .name .receiver n ∈ s.mentions →
      hidingClass.declares s n.text = false → Equiv.swap "a" "c" n.text = n.text := by
    intro s hs n hn hdeclares
    obtain rfl := List.mem_singleton.mp hs
    have hnames : n.text ∈ ["a", "Output"] := by
      simp [Subroutine.mentions, blockMentions, Stmt.mentions, Call.mentions, argsMentions,
        Expr.mentions, Term.mentions, declaredMentions] at hn
      rcases hn with rfl | rfl <;> decide
    rcases List.mem_pair.mp hnames with heq | heq <;> rw [heq] at hdeclares ⊢
    · cases hdeclares
    · decide
  refine ⟨Equiv.injective _, by decide, hreceiver, by decide, by decide, ?_⟩
  exact Compiler.compile_renamed _ (Equiv.injective _) (by decide) hreceiver

end JackCompiler
