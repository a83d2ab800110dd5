import JackCompiler.Emit.Declaration
import JackCompiler.Failure
import JackCompiler.Grammar.Declaration
import JackCompiler.Machine.Writer
import JackCompiler.Token.Table

/-!
# The compiler

A source is read as a whole before anything is written. What was written before a complaint about
the meaning of the class stays in the sink. The sink is flushed once, after all code has been
written.
-/

namespace JackCompiler

/-- How a step ended and what the journal says about it. -/
structure Report (α : Type) where
  outcome : Except Failure α
  records : List Record

/-- Deliver records up to the first that a writer refuses, given the ones delivered before in reverse
order. Only instructions are written; each is noted before it is written. -/
def Writer.deliverOnto {σ : Type} (w : Writer σ) :
    σ → List Record → List Record → Option SinkError × List Record × σ
  | s, [], done => (none, done.reverse, s)
  | s, r :: rs, done =>
      match r.instruction? with
      | none => w.deliverOnto s rs (r :: done)
      | some i =>
          match w.writeLine s i with
          | (.ok _, s) => w.deliverOnto s rs (r :: done)
          | (.error e, s) => (some e, (r :: done).reverse, s)

/-- Deliver a trail to a writer. A refusal comes before the complaint at the end of the trail; without
either the writer is flushed. The source is the one that the complaint is about. -/
def Writer.deliver {σ : Type} (w : Writer σ) (s : σ) (source : String) (t : Trail Record) :
    Report Unit × σ :=
  match w.deliverOnto s t.items [] with
  | (some e, records, s) => (⟨.error (.sink e), records⟩, s)
  | (none, records, s) =>
      match t.fault with
      | some c => (⟨.error (c.failure source), records⟩, s)
      | none =>
          match w.flush s with
          | (.ok _, s) => (⟨.ok (), records⟩, s)
          | (.error e, s) => (⟨.error (.sink e), records⟩, s)

/-- Deliver a trail to a sink. -/
def Sink.deliver (s : Sink) (source : String) (t : Trail Record) : Report Unit × Sink :=
  Sink.writer.deliver s source t

/-- A compiler for the classes of a source, with the sink that it writes to. -/
structure Compiler where
  source : String
  options : Options
  generator : Generator
  sink : Sink

/-- A compiler that has not compiled a class yet. -/
def Compiler.new (source : String) (options : Options) (sink : Sink) : Compiler :=
  ⟨source, options, .new, sink⟩

/-- Compile a class. Complaints are located in the source of the compiler. -/
def Compiler.compile (c : Compiler) (tree : ClassTree) : Report Unit × Compiler :=
  let (trail, generator) := c.generator.compile c.options tree
  let (report, sink) := c.sink.deliver c.source trail
  (report, { c with generator := generator, sink := sink })

/-- Read the class of a source. -/
def parse (source : String) : Report ClassTree :=
  match readClass source with
  | (.ok tree, records) => ⟨.ok tree, records⟩
  | (.error e, records) => ⟨.error (e.failure source), records⟩

/-- Compile what was read of a source into a sink. -/
def Report.compiledInto (options : Options) (source : String) (sink : Sink) :
    Report ClassTree → Report Unit × Sink
  | ⟨.error e, records⟩ => (⟨.error e, records⟩, sink)
  | ⟨.ok tree, records⟩ =>
      let (report, c) := (Compiler.new source options sink).compile tree
      (⟨report.outcome, records ++ report.records⟩, c.sink)

/-- Compile what was read of a source to the text of its listing. -/
def Report.compiled (options : Options) (source : String) : Report ClassTree → Report String
  | ⟨.error e, records⟩ => ⟨.error e, records⟩
  | ⟨.ok tree, records⟩ =>
      let (trail, _) := Generator.new.compile options tree
      match trail.fault with
      | some c => ⟨.error (c.failure source), records ++ trail.items⟩
      | none => ⟨.ok (listing (trail.items.filterMap Record.instruction?)), records ++ trail.items⟩

/-- Compile a source into a sink. -/
def compileInto (options : Options) (source : String) (sink : Sink) : Report Unit × Sink :=
  (parse source).compiledInto options source sink

/-- Compile a source to the text of its listing. -/
def compile (options : Options) (source : String) : Report String :=
  (parse source).compiled options source

/-- How the writing of a table ended, given the failure that a complaint makes. -/
def TableReport.report (failure : Complaint → Failure) (r : TableReport) : Report Unit × TextSink :=
  let records := r.scanned.map Record.scanned
  match r.fault with
  | none => (⟨.ok (), records⟩, r.sink)
  | some (.complaint c) => (⟨.error (failure c), records⟩, r.sink)
  | some .full => (⟨.error .tableFull, records⟩, r.sink)

/-- Write the token table of a source. -/
def tokenTable (source : String) (sink : TextSink) : Report Unit × TextSink :=
  (writeTable source sink).report (Complaint.failure · source)

end JackCompiler
