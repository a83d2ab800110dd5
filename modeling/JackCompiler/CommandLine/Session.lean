import JackCompiler.CommandLine.Arguments
import JackCompiler.CommandLine.Path
import JackCompiler.Program

/-!
# A session of the command line

A session carries out one request on a disk. Each source is compiled on its own and its listing is
written next to it; a source that fails leaves its listing as it was, and the others are compiled
all the same. A file that cannot be read or written ends the session, and so does a failure that
cannot be shown.

## Implementation notes

The disk is given by its operations in some monad, so that a session is the same on the disk of a
machine and on a tree of files held as a value.
-/

namespace JackCompiler

/-- The operations of a disk. What cannot be done is answered by nothing or by `false`. -/
structure Disk (m : Type → Type) where
  isDirectory : String → m Bool
  isFile : String → m Bool
  names : String → m (Option (List String))
  readText : String → m (Option String)
  writeText : String → String → m Bool

/-- What a session leaves behind: its exit status, its output and its error messages in order. -/
structure SessionResult where
  status : Nat
  output : String
  errors : List String
deriving DecidableEq, Repr

/-- How a session comes to its end: when it is through, at a file, or because the program breaks
off. -/
inductive Ending where
  | through
  | stopped
  | brokenOff
deriving DecidableEq, Repr

/-- The exit status of a session that has had some error messages or none. -/
def Ending.status (failed : Bool) : Ending → Nat
  | through => if failed then 1 else 0
  | stopped => 1
  | brokenOff => 101

variable {m : Type → Type} [Monad m]

/-- The sources that a path stands for: the source files of a directory in the order of their names,
or the path itself. There are none to be had from a directory that cannot be listed. -/
def sourcePaths (disk : Disk m) (path : String) : m (Option (List String)) := do
  if ← disk.isDirectory path then
    match ← disk.names path with
    | none => return none
    | some names =>
        let sources := (names.filter isSourceName).mergeSort fun a b => a ≤ b
        return some (← (sources.map (joinPath path)).filterM disk.isFile)
  else
    return some [path]

/-- Compile sources in order, given the messages so far in reverse order. The answer has the
messages, and how the session came to its end. -/
def compileSources (disk : Disk m) (options : Options) :
    List String → List String → m (List String × Ending)
  | [], errors => return (errors.reverse, .through)
  | path :: paths, errors => do
      match ← disk.readText path with
      | none => return (errors.reverse, .stopped)
      | some source =>
          match (Program.compile options source).outcome with
          | .ok text =>
              if ← disk.writeText (withExtension path listingExtension) text then
                compileSources disk options paths errors
              else
                return (errors.reverse, .stopped)
          | .error e =>
              match e.render? with
              | some message =>
                  compileSources disk options paths ((path ++ ": " ++ message) :: errors)
              | none => return (errors.reverse, .brokenOff)

/-- Compile a source, or the sources of a directory. -/
def compileSession (disk : Disk m) (path : String) (options : Options) : m SessionResult := do
  match ← sourcePaths disk path with
  | none => return ⟨1, "", []⟩
  | some [] => return ⟨1, "", ["no .jack files in " ++ path]⟩
  | some paths =>
      let (errors, ending) ← compileSources disk options paths []
      return ⟨ending.status !errors.isEmpty, "", errors⟩

/-- Show the token table of a source. Nothing is shown of a table that cannot be finished. -/
def tokensSession (disk : Disk m) (path : String) : m SessionResult := do
  match ← disk.readText path with
  | none => return ⟨1, "", []⟩
  | some source =>
      match Program.tokenTable source ⟨none, ""⟩ with
      | (⟨.ok _, _⟩, table) => return ⟨0, table.content, []⟩
      | (⟨.error e, _⟩, _) =>
          let ending := if e.breaksOff then Ending.brokenOff else .stopped
          return ⟨ending.status true, "", []⟩

/-- Carry out what the arguments ask for. -/
def session (disk : Disk m) (args : List String) : m SessionResult :=
  match Request.ofArguments? args with
  | some (.compile path options) => compileSession disk path options
  | some (.tokens path) => tokensSession disk path
  | none => return ⟨64, usage, []⟩

end JackCompiler
