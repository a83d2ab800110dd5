import JackCompiler.Machine.Instruction
import JackCompiler.Machine.Sink

/-!
# Writers

A writer is whatever instructions can be written to: it takes texts and can be flushed, and it may
refuse either.
-/

namespace JackCompiler

/-- How requests to write a text and to flush are answered, and what they change. -/
structure Writer (σ : Type) where
  write : σ → String → Except SinkError Unit × σ
  flush : σ → Except SinkError Unit × σ

/-- Write the line of an instruction: its text, and then its end. -/
def Writer.writeLine {σ : Type} (w : Writer σ) (s : σ) (i : Instruction) :
    Except SinkError Unit × σ :=
  match w.write s i.text with
  | (.ok _, s) => w.write s "\n"
  | (.error e, s) => (.error e, s)

/-- Sinks as a writer. -/
def Sink.writer : Writer Sink where
  write := Sink.write
  flush s := (s.flush, s)

end JackCompiler
