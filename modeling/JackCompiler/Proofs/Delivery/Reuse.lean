import JackCompiler.Proofs.Delivery.Unlimited

/-!
# Compilers that are used again

A compiler keeps its class, its scopes and its counters from one class to the next, as they were when
it last stopped. None of them matters to the next class: the class and its scope are set before the
first subroutine, and the scope and the counters of a subroutine before its statements. So a compiler
that has seen any classes, in whatever state the last one left it, does for the next class what a new
one does.

## Implementation notes

A subroutine that cannot declare its variables leaves the counters as they were before it. Generators
that agree on their class can go on differing there, so they are compared by their class alone.
-/

namespace JackCompiler

namespace Generator

/-- Two generators are in the same class. -/
structure SameClass (g h : Generator) : Prop where
  className : g.className = h.className
  classScope : g.classScope = h.classScope

variable {g h : Generator}

theorem subroutine_congr (o : Options) (s : Subroutine) (hgh : g.SameClass h) :
    (g.subroutine o s).1 = (h.subroutine o s).1 ∧
      (g.subroutine o s).2.SameClass (h.subroutine o s).2 := by
  obtain ⟨name, classScope, scope, counters⟩ := g
  obtain ⟨hname, hscope⟩ := hgh
  dsimp only at hname hscope
  subst hname hscope
  simp only [subroutine]
  split
  · exact ⟨rfl, rfl, rfl⟩
  · exact ⟨rfl, rfl, rfl⟩

theorem subroutines_congr (o : Options) (ss : List Subroutine) (hgh : g.SameClass h) :
    (g.subroutines o ss).1 = (h.subroutines o ss).1 := by
  induction ss generalizing g h with
  | nil => rfl
  | cons s ss ih =>
      obtain ⟨htrail, hclass⟩ := subroutine_congr o s hgh
      rcases hg : g.subroutine o s with ⟨⟨records, fault⟩, g'⟩
      rcases hh : h.subroutine o s with ⟨trail, h'⟩
      rw [hg, hh] at htrail hclass
      obtain rfl : _ = trail := htrail
      rw [subroutines, subroutines, hg, hh]
      cases fault with
      | some e => rfl
      | none =>
          dsimp only
          rw [ih hclass]

/-- A class is compiled alike from every state of a generator. -/
theorem compile_fst (o : Options) (c : ClassTree) (g : Generator) :
    (g.compile o c).1 = (new.compile o c).1 := by
  have hrest := subroutines_congr o c.subroutines
    (g := ⟨c.name.text, (Scope.empty.declare c.declarations).2, g.scope, g.counters⟩)
    (h := ⟨c.name.text, (Scope.empty.declare c.declarations).2, new.scope, new.counters⟩) ⟨rfl, rfl⟩
  simp only [compile]
  split
  · rfl
  · rw [hrest]

end Generator

namespace Compiler

/-- A compiler after some classes, whatever became of each of them. -/
def after (c : Compiler) (ts : List ClassTree) : Compiler :=
  ts.foldl (fun c t => (c.compile t).2) c

/-- In any state a compiler reports of a class what a new one reports, and writes what a new one
writes. -/
theorem compile_eq {c : Compiler} (h : c.sink.Unlimited) (t : ClassTree) :
    (c.compile t).1 = ((new c.source c.options (.empty none false)).compile t).1 ∧
      (c.compile t).2 = { c with
        generator := (c.generator.compile c.options t).2
        sink := c.sink.extend (listing (t.output c.options).items) } := by
  have hfresh : (Sink.empty none false).Unlimited := ⟨rfl, rfl⟩
  constructor
  · simp only [compile, new, h.deliver, hfresh.deliver, Generator.compile_fst]
  · simp only [compile, h.deliver, Generator.compile_fst]
    rfl

/-- Classes are written one after the other, each of them as if it were the only one. -/
theorem after_eq {c : Compiler} (h : c.sink.Unlimited) (ts : List ClassTree) :
    (c.after ts).source = c.source ∧ (c.after ts).options = c.options ∧
      (c.after ts).sink =
        c.sink.extend (listing (ts.flatMap fun t => (t.output c.options).items)) := by
  induction ts generalizing c with
  | nil => exact ⟨rfl, rfl, c.sink.extend_empty.symm⟩
  | cons t ts ih =>
      have hstep := (compile_eq h t).2
      have hsink : (c.compile t).2.sink =
          c.sink.extend (listing (t.output c.options).items) := by rw [hstep]
      have hunlimited : (c.compile t).2.sink.Unlimited := hsink ▸ h.extend _
      obtain ⟨hsource, hoptions, hrest⟩ := ih hunlimited
      refine ⟨hsource.trans (by rw [hstep]), hoptions.trans (by rw [hstep]), ?_⟩
      calc
        ((c.compile t).2.after ts).sink =
            (c.compile t).2.sink.extend
              (listing (ts.flatMap fun t => (t.output c.options).items)) := by
          rw [hrest, hstep]
        _ = c.sink.extend
              (listing ((t :: ts).flatMap fun t => (t.output c.options).items)) := by
          rw [hsink, List.flatMap_cons, listing_append, Sink.extend_append]

/-- A compiler keeps nothing from one class to the next. After any classes, whether or not they
compiled, it reports of a class what a new compiler for the same source reports of it alone, and adds
to its sink the very text that the new one writes. -/
theorem compile_after (source : String) (o : Options) {sink : Sink} (h : sink.Unlimited)
    (ts : List ClassTree) (t : ClassTree) :
    let used := (new source o sink).after ts
    let fresh := (new source o (.empty none false)).compile t
    (used.compile t).1 = fresh.1 ∧
      (used.compile t).2.sink.content = used.sink.content ++ fresh.2.sink.content := by
  dsimp only
  obtain ⟨hsource, hoptions, hsink⟩ := after_eq (c := new source o sink) h ts
  have hunlimited : ((new source o sink).after ts).sink.Unlimited := hsink ▸ h.extend _
  obtain ⟨hreport, hused⟩ := compile_eq hunlimited t
  have hfresh := (compile_eq (c := new source o (.empty none false)) ⟨rfl, rfl⟩ t).2
  refine ⟨hreport.trans ?_, ?_⟩
  · rw [hsource, hoptions]
    rfl
  · rw [hused, hfresh, hoptions]
    exact congrArg (_ ++ ·) ByteArray.empty_append.symm

end Compiler

/-- A class with one function that has statements in a conditional in a conditional. -/
def branchClass (inner : List Stmt) : ClassTree :=
  let always : Expr := .operand [] (.word .true)
  { name := ⟨"Main", ⟨0, 4⟩⟩
    vars := []
    subroutines := [
      { kind := .function
        returns := none
        name := ⟨"main", ⟨0, 4⟩⟩
        parameters := []
        body := ⟨[], [.branch always [.branch always inner none] none, .ret none]⟩ }] }

/-- A statement that sets a variable that nothing declares. -/
def strayStmt : Stmt :=
  .assign ⟨"k", ⟨0, 1⟩⟩ none (.operand [] (.integer 1))

/-- A statement with a character that the machine has no constant for. -/
def oddStmt : Stmt :=
  .ret (some (.operand [] (.text "\u00e9\uac00" ⟨0, 7⟩)))

/-- Two classes stop a compiler inside a nested conditional and inside a string, and leave it with a
counter stepped up. The next class is compiled as if they had not been there. -/
theorem branchClass_after :
    let sink : Sink := .empty none false
    let used := (Compiler.new "" ⟨.nested, .deferred⟩ sink).after
      [branchClass [strayStmt], branchClass [oddStmt]]
    let fresh := (Compiler.new "" ⟨.nested, .deferred⟩ sink).compile (branchClass [])
    sink.Unlimited ∧ used.generator.counters = ⟨1, 0⟩ ∧
      ((branchClass [strayStmt]).output ⟨.nested, .deferred⟩).fault.isSome ∧
      ((branchClass [oddStmt]).output ⟨.nested, .deferred⟩).fault.isSome ∧
      (used.compile (branchClass [])).1 = fresh.1 ∧
      (used.compile (branchClass [])).2.sink.content =
        used.sink.content ++ fresh.2.sink.content := by
  refine ⟨⟨rfl, rfl⟩, ?_, by decide, by decide, ?_⟩
  · rfl
  · exact Compiler.compile_after "" ⟨.nested, .deferred⟩ ⟨rfl, rfl⟩ _ _

end JackCompiler
