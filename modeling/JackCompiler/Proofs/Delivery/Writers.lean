import JackCompiler.Compiler
import JackCompiler.Proofs.Output.Functions

/-!
# What a writer is asked

Whatever the answers of a writer are, it is asked to write the lines of a listing in order, up to the
first refusal, and it is asked to be flushed once, at the end, if the source compiles and nothing was
refused, and otherwise not at all.

## Implementation notes

The line of an instruction comes to a writer in two texts, so that a refusal can fall between a line
and its end. Code is settled as a list of such texts; the journal of the delivery is left out of that.
-/

namespace JackCompiler

/-- The texts that the line of an instruction is written as. -/
def Instruction.pieces (i : Instruction) : List String :=
  [i.text, "\n"]

/-- How a run ended, without what the journal says about it. -/
def ending {σ : Type} (run : Report Unit × σ) : Except Failure Unit × σ :=
  (run.1.outcome, run.2)

namespace Writer

/-- What a writer can be asked. -/
inductive Request where
  | write (text : String)
  | flush
deriving DecidableEq, Repr

variable {σ : Type}

/-- Write texts in order, up to the first that is refused. -/
def writeAll (w : Writer σ) : σ → List String → Except SinkError Unit × σ
  | s, [] => (.ok (), s)
  | s, text :: texts =>
      match w.write s text with
      | (.ok _, s) => w.writeAll s texts
      | (.error e, s) => (.error e, s)

/-- Flush a writer that has all code of a class. -/
def finish (w : Writer σ) (s : σ) : Except Failure Unit × σ :=
  match w.flush s with
  | (.ok _, s) => (.ok (), s)
  | (.error e, s) => (.error (.sink e), s)

/-- What becomes of code that is written to a writer. -/
def settle (w : Writer σ) (s : σ) (source : String) (t : Code) : Except Failure Unit × σ :=
  match w.writeAll s (t.items.flatMap Instruction.pieces) with
  | (.error e, s) => (.error (.sink e), s)
  | (.ok _, s) =>
      match t.fault with
      | some c => (.error (c.failure source), s)
      | none => w.finish s

/-- Compile a source into a writer. -/
def compileInto (w : Writer σ) (o : Options) (source : String) (s : σ) : Report Unit × σ :=
  match parse source with
  | ⟨.error e, records⟩ => (⟨.error e, records⟩, s)
  | ⟨.ok tree, records⟩ =>
      let (report, s) := w.deliver s source (Generator.new.compile o tree).1
      (⟨report.outcome, records ++ report.records⟩, s)

/-- A writer that keeps what it was asked. -/
def recorded (w : Writer σ) : Writer (σ × List Request) where
  write s text := ((w.write s.1 text).1, (w.write s.1 text).2, s.2 ++ [.write text])
  flush s := ((w.flush s.1).1, (w.flush s.1).2, s.2 ++ [.flush])

/-- All code of a source is written without a complaint and without a refusal, and leaves a writer in
some state. -/
def Completes (w : Writer σ) (o : Options) (source : String) (s s' : σ) : Prop :=
  ∃ tree, (parse source).outcome = .ok tree ∧ (tree.output o).fault = none ∧
    w.writeAll s ((tree.output o).items.flatMap Instruction.pieces) = (.ok (), s')

variable (w : Writer σ) (o : Options) (source : String) (s : σ)

/-! ## Deliveries -/

theorem writeAll_append (xs ys : List String) : w.writeAll s (xs ++ ys) =
    match w.writeAll s xs with
    | (.ok _, s) => w.writeAll s ys
    | (.error e, s) => (.error e, s) := by
  induction xs generalizing s with
  | nil => rfl
  | cons x xs ih =>
      rw [List.cons_append, writeAll, writeAll]
      rcases w.write s x with ⟨e | ⟨⟩, s'⟩
      · rfl
      · exact ih s'

theorem writeLine_eq (i : Instruction) : w.writeLine s i = w.writeAll s i.pieces := by
  rw [writeLine, Instruction.pieces, writeAll]
  rcases w.write s i.text with ⟨e | ⟨⟩, s'⟩
  · rfl
  · dsimp only
    rw [writeAll]
    rcases w.write s' "\n" with ⟨e | ⟨⟩, s''⟩ <;> rfl

/-- Delivering records writes the instructions among them. -/
theorem deliverOnto_eq (rs done : List Record) :
    ((w.deliverOnto s rs done).1, (w.deliverOnto s rs done).2.2) =
      match w.writeAll s ((rs.filterMap Record.instruction?).flatMap Instruction.pieces) with
      | (.ok _, s) => (none, s)
      | (.error e, s) => (some e, s) := by
  induction rs generalizing s done with
  | nil => rfl
  | cons r rs ih =>
      rw [deliverOnto]
      cases hr : r.instruction? with
      | none =>
          dsimp only
          rw [ih, List.filterMap_cons_none hr]
      | some i =>
          rw [List.filterMap_cons_some hr, List.flatMap_cons, writeAll_append, ← writeLine_eq]
          dsimp only
          rcases w.writeLine s i with ⟨e | ⟨⟩, s'⟩
          · rfl
          · exact ih s' _

theorem deliver_eq (t : Trail Record) :
    ending (w.deliver s source t) = w.settle s source t.instructions := by
  have honto := w.deliverOnto_eq s t.items []
  have hitems : t.instructions.items = t.items.filterMap Record.instruction? := rfl
  have hfault : t.instructions.fault = t.fault := rfl
  rw [deliver, settle, hitems, hfault]
  revert honto
  rcases w.deliverOnto s t.items [] with ⟨answer, records, s₁⟩
  rcases w.writeAll s ((t.items.filterMap Record.instruction?).flatMap Instruction.pieces) with
    ⟨e | ⟨⟩, s₂⟩
  · rintro ⟨⟩
    rfl
  · rintro ⟨⟩
    cases t.fault with
    | some c => rfl
    | none =>
        dsimp only
        rw [finish]
        rcases w.flush s₁ with ⟨e | ⟨⟩, s'⟩ <;> rfl

theorem compileInto_eq : ending (w.compileInto o source s) =
    match (parse source).outcome with
    | .error e => (.error e, s)
    | .ok tree => w.settle s source (tree.output o) := by
  unfold compileInto
  rcases parse source with ⟨e | tree, records⟩
  · rfl
  · exact w.deliver_eq source s _

/-! ## Requests -/

/-- A writer is asked to write texts in order, and the first that it refuses is the last that it is
asked to write. -/
theorem recorded_writeAll (texts : List String) (log : List Request) :
    ∃ asked, asked <+: texts ∧
      w.recorded.writeAll (s, log) texts =
        ((w.writeAll s texts).1, (w.writeAll s texts).2, log ++ asked.map .write) ∧
      match (w.writeAll s texts).1 with
      | .ok _ => asked = texts
      | .error e => ∃ before text s', asked = before ++ [text] ∧
          w.writeAll s before = (.ok (), s') ∧ w.write s' text = (.error e, (w.writeAll s texts).2) := by
  induction texts generalizing s log with
  | nil => exact ⟨[], List.nil_prefix, by simp [writeAll], rfl⟩
  | cons text texts ih =>
      rcases hwrite : w.write s text with ⟨e | ⟨⟩, s'⟩
      · refine ⟨[text], ⟨texts, rfl⟩, ?_, ?_⟩
        · simp [writeAll, recorded, hwrite]
        · simp only [writeAll, hwrite]
          exact ⟨[], text, s, rfl, rfl, hwrite⟩
      · obtain ⟨asked, hprefix, hrun, hanswer⟩ := ih s' (log ++ [.write text])
        refine ⟨text :: asked, List.cons_prefix_cons.mpr ⟨rfl, hprefix⟩, ?_, ?_⟩
        · have hrecorded : w.recorded.write (s, log) text = (.ok (), s', log ++ [.write text]) := by
            simp [recorded, hwrite]
          rw [writeAll, hrecorded]
          dsimp only
          rw [hrun, writeAll, hwrite]
          simp
        · simp only [writeAll, hwrite]
          revert hanswer
          cases (w.writeAll s' texts).1 with
          | ok _ => exact congrArg (text :: ·)
          | error e =>
              rintro ⟨before, last, s'', rfl, hbefore, hlast⟩
              refine ⟨text :: before, last, s'', rfl, ?_, hlast⟩
              simp only [writeAll, hwrite, hbefore]

theorem recorded_finish (log : List Request) : w.recorded.finish (s, log) =
    ((w.finish s).1, (w.finish s).2, log ++ [.flush]) := by
  rw [finish, finish, recorded]
  dsimp only
  rcases w.flush s with ⟨e | ⟨⟩, s'⟩ <;> rfl

/-- How a writer is flushed does not matter to what is written. -/
theorem writeAll_withFlush (flush : σ → Except SinkError Unit × σ) (texts : List String) :
    ({ w with flush := flush } : Writer σ).writeAll s texts = w.writeAll s texts := by
  induction texts generalizing s with
  | nil => rfl
  | cons text texts ih => simp only [writeAll, ih]

variable {w o source s}

/-- When all code has been written, a writer is flushed, and what it answers is the outcome. -/
theorem Completes.ending_eq {s' : σ} (h : w.Completes o source s s') :
    ending (w.compileInto o source s) = w.finish s' ∧
      ∃ asked : List String, ending (w.recorded.compileInto o source (s, [])) =
        ((w.finish s').1, (w.finish s').2, asked.map .write ++ [.flush]) := by
  obtain ⟨tree, hparse, hfault, hwritten⟩ := h
  obtain ⟨asked, -, hrun, -⟩ :=
    w.recorded_writeAll s ((tree.output o).items.flatMap Instruction.pieces) []
  rw [hwritten, List.nil_append] at hrun
  refine ⟨?_, asked, ?_⟩
  · simp only [compileInto_eq, hparse, settle, hwritten, hfault]
  · simp only [compileInto_eq, hparse, settle, hrun, hfault, recorded_finish]

/-- When some code has not been written, a writer is not flushed, and how it would be flushed does
not matter. -/
theorem ending_of_not_completes (h : ∀ s', ¬w.Completes o source s s') :
    ∃ (e : Failure) (s' : σ) (asked : List String),
      ending (w.recorded.compileInto o source (s, [])) = (.error e, s', asked.map .write) ∧
      ∀ flush, ending (({ w with flush := flush } : Writer σ).compileInto o source s) =
        (.error e, s') := by
  rcases hparse : (parse source).outcome with e | tree
  · refine ⟨e, s, [], ?_, fun flush => ?_⟩
    · rw [compileInto_eq, hparse]
      rfl
    · rw [compileInto_eq, hparse]
  · obtain ⟨asked, -, hrun, -⟩ :=
      w.recorded_writeAll s ((tree.output o).items.flatMap Instruction.pieces) []
    rw [List.nil_append] at hrun
    rcases hwritten : w.writeAll s ((tree.output o).items.flatMap Instruction.pieces) with
      ⟨e | ⟨⟩, s'⟩
    · refine ⟨.sink e, s', asked, ?_, fun flush => ?_⟩
      · simp only [compileInto_eq, hparse, settle, hrun, hwritten]
      · simp only [compileInto_eq, hparse, settle, writeAll_withFlush, hwritten]
    · cases hfault : (tree.output o).fault with
      | none => exact absurd ⟨tree, hparse, hfault, hwritten⟩ (h s')
      | some c =>
          refine ⟨c.failure source, s', asked, ?_, fun flush => ?_⟩
          · simp only [compileInto_eq, hparse, settle, hrun, hwritten, hfault]
          · simp only [compileInto_eq, hparse, settle, writeAll_withFlush, hwritten, hfault]

/-- Keeping what a writer is asked changes nothing about it. A writer is asked for nothing if the source
does not parse. It is flushed once and last, and its answer is the outcome, if all code has been
written; otherwise it is not flushed, the outcome is a failure, and how a flush would have been
answered makes no difference. -/
theorem compileInto_requests (w : Writer σ) (o : Options) (source : String) (s : σ) :
    let run := w.recorded.compileInto o source (s, [])
    (run.1.outcome, run.2.1) = ending (w.compileInto o source s) ∧
    (∀ e, (parse source).outcome = .error e → ending run = (.error e, s, [])) ∧
    (∀ s', w.Completes o source s s' → run.2.2.count .flush = 1 ∧
      run.2.2.getLast? = some .flush ∧ ending (w.compileInto o source s) = w.finish s') ∧
    ((∀ s', ¬w.Completes o source s s') → .flush ∉ run.2.2 ∧ run.1.outcome ≠ .ok () ∧
      ∀ flush, ending (({ w with flush := flush } : Writer σ).compileInto o source s) =
        ending (w.compileInto o source s)) := by
  dsimp only
  have hparts {outcome : Except Failure Unit} {s' : σ} {log : List Request}
      (hrun : ending (w.recorded.compileInto o source (s, [])) = (outcome, s', log)) :
      (w.recorded.compileInto o source (s, [])).1.outcome = outcome ∧
        (w.recorded.compileInto o source (s, [])).2 = (s', log) := Prod.mk.inj hrun
  refine ⟨?_, fun e he => ?_, fun s' hcompletes => ?_, fun hnot => ?_⟩
  · by_cases hcompletes : ∃ s', w.Completes o source s s'
    · obtain ⟨s', hcompletes⟩ := hcompletes
      obtain ⟨hself, asked, hrun⟩ := hcompletes.ending_eq
      obtain ⟨houtcome, hstate⟩ := hparts hrun
      rw [houtcome, hstate, hself]
    · obtain ⟨e, s', asked, hrun, hanyFlush⟩ := ending_of_not_completes (not_exists.mp hcompletes)
      obtain ⟨houtcome, hstate⟩ := hparts hrun
      rw [houtcome, hstate]
      exact (hanyFlush w.flush).symm
  · rw [compileInto_eq, he]
  · obtain ⟨hself, asked, hrun⟩ := hcompletes.ending_eq
    have hwrites : Request.flush ∉ asked.map .write := by simp
    rw [(hparts hrun).2]
    refine ⟨?_, List.getLast?_concat, hself⟩
    rw [List.count_append, List.count_eq_zero_of_not_mem hwrites]
    rfl
  · obtain ⟨e, s', asked, hrun, hanyFlush⟩ := ending_of_not_completes hnot
    obtain ⟨houtcome, hstate⟩ := hparts hrun
    rw [houtcome, hstate]
    refine ⟨by simp, by simp, fun flush => ?_⟩
    exact (hanyFlush flush).trans (hanyFlush w.flush).symm

end Writer

/-- Sinks are compiled into as writers. -/
theorem compileInto_eq_writer (o : Options) (source : String) (s : Sink) :
    compileInto o source s = Sink.writer.compileInto o source s := by
  unfold compileInto Report.compiledInto Writer.compileInto
  rcases parse source with ⟨e | tree, records⟩ <;> rfl

end JackCompiler
