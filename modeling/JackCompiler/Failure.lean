import JackCompiler.Complaint
import JackCompiler.Machine.Sink

/-!
# Failures

A compilation fails on account of its source, with a diagnosis, or on account of the sink that takes
its output. It can also break off.
-/

namespace JackCompiler

/-- Why a compilation failed. A complaint whose offset falls inside a character of the source it is
held against has no location; it stays without one. Reading is torn at a token whose text cannot be
had. -/
inductive Failure where
  | diagnosed (d : Diagnosis)
  | unplaced (c : Complaint)
  | torn
  | sink (e : SinkError)
  | tableFull
deriving DecidableEq, Repr

/-- The failure that a complaint about a source makes. -/
def Complaint.failure (c : Complaint) (source : String) : Failure :=
  match c.diagnosis? source with
  | some d => .diagnosed d
  | none => .unplaced c

/-- A failure as shown to a reader. -/
def Failure.render : Failure → String
  | diagnosed d => d.render
  | unplaced c => c.cause.phase ++ " error: " ++ c.cause.message
  | torn => "the text of a token cannot be had"
  | sink e => e.message
  | tableFull => "an error occurred when formatting an argument"

/-- The compiler breaks off and gives no answer. -/
def Failure.breaksOff : Failure → Bool
  | unplaced _ | torn => true
  | _ => false

/-- A failure as shown. There is nothing to show where the compiler breaks off, and where a location
is too far to the right. -/
def Failure.render? : Failure → Option String
  | diagnosed d => d.render?
  | f => if f.breaksOff then none else some f.render

end JackCompiler
