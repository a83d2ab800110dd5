/-!
# Sinks

A sink takes the bytes of a listing. It may have room for a limited number of them, and it may fail
when it is flushed. What fits is kept, also when the write that brought it fails.
-/

namespace JackCompiler

/-- Why a sink refused. -/
inductive SinkError where
  | full
  | flushFailed
deriving DecidableEq, Repr

/-- The wording of a refusal. -/
def SinkError.message : SinkError → String
  | full => "sink full"
  | flushFailed => "flush failed"

/-- A sink: the bytes it can still take if they are limited, whether flushing it fails, and the
bytes it holds. -/
structure Sink where
  room : Option Nat
  flushFails : Bool
  content : ByteArray

namespace Sink

/-- An empty sink. -/
def empty (limit : Option Nat) (flushFails : Bool) : Sink :=
  ⟨limit, flushFails, ByteArray.empty⟩

/-- Write a text to a sink. -/
def write (s : Sink) (text : String) : Except SinkError Unit × Sink :=
  match s with
  | ⟨none, flushFails, content⟩ => (.ok (), ⟨none, flushFails, content ++ text.toUTF8⟩)
  | ⟨some room, flushFails, content⟩ =>
      let bytes := text.toUTF8
      if bytes.size ≤ room then (.ok (), ⟨some (room - bytes.size), flushFails, content ++ bytes⟩)
      else (.error .full, ⟨some 0, flushFails, content ++ bytes.extract 0 room⟩)

/-- Flush a sink. -/
def flush (s : Sink) : Except SinkError Unit :=
  if s.flushFails then .error .flushFailed else .ok ()

end Sink

end JackCompiler
