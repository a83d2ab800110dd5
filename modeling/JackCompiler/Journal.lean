import JackCompiler.Machine.Instruction
import JackCompiler.Text.Quoted
import JackCompiler.Token.Basic
import JackCompiler.Tree.Declaration

/-!
# The journal

While it works the compiler keeps a journal: which tokens it scans, which classes and subroutines it
reads and compiles, which declarations hide behind an earlier one, and which instructions it writes.
-/

namespace JackCompiler

/-- How much a record matters, most severe first. -/
inductive Level where
  | error | warn | info | debug | trace
deriving DecidableEq, Repr

namespace Level

/-- The name of a level. -/
def text : Level → String
  | error => "ERROR"
  | warn => "WARN"
  | info => "INFO"
  | debug => "DEBUG"
  | trace => "TRACE"

/-- The rank of a level: the more severe, the lower. -/
def rank : Level → Nat
  | error => 0
  | warn => 1
  | info => 2
  | debug => 3
  | trace => 4

end Level

/-- One step that the compiler took. -/
inductive Record where
  | scanned (token : Token)
  | readingClass (name : String)
  | readingSubroutine (kind : SubroutineKind) (name : String)
  | compilingClass (name : String)
  | compilingSubroutine (kind : SubroutineKind) (name : String)
  | redefined (earlier : VariableKind) (name : String) (later : VariableKind)
  | instruction (i : Instruction)
deriving DecidableEq, Repr

namespace Record

/-- The level of a record. -/
def level : Record → Level
  | scanned _ | instruction _ => .trace
  | redefined .. => .warn
  | _ => .debug

/-- The text of a record. -/
def text : Record → String
  | scanned token => "token " ++ token.kind.name ++ " " ++ quoteText token.text
  | readingClass name => "parsing class " ++ name
  | readingSubroutine kind name => "parsing " ++ kind.name ++ " " ++ name
  | compilingClass name => "compiling class " ++ name
  | compilingSubroutine kind name => "compiling " ++ kind.name ++ " " ++ name
  | redefined earlier name later =>
      "redefinition of " ++ earlier.text ++ " '" ++ name ++ "' as " ++ later.text ++
        ", earlier definition shadows it"
  | instruction i => i.text

/-- A record as one line, its level first. -/
def line (r : Record) : String :=
  r.level.text ++ " " ++ r.text

/-- The instruction that a record is about. -/
def instruction? : Record → Option Instruction
  | instruction i => some i
  | _ => none

end Record

/-- The records of a journal at a level or a more severe one, in order. -/
def journalAt (level : Level) (records : List Record) : List Record :=
  records.filter fun r => r.level.rank ≤ level.rank

end JackCompiler
