import JackCompiler.CommandLine.Session

/-!
# The program

The command line on the disk of the machine. Error messages go to the standard error stream.
-/

namespace JackCompiler

/-- The answer of an action, if it succeeds. -/
def attempt? {α : Type} (action : IO α) : IO (Option α) := do
  try
    return some (← action)
  catch _ =>
    return none

/-- A path as the entry that it is of no directory. -/
def entryOf (path : String) : IO.FS.DirEntry :=
  ⟨⟨path⟩, ""⟩

/-- A path leads to a regular file. -/
def isRegularFile (path : String) : IO Bool := do
  let metadata ← attempt? (entryOf path).root.metadata
  return metadata.any fun data => data.type == .file

/-- The disk of the machine. -/
def machineDisk : Disk IO where
  isDirectory path := (entryOf path).root.isDir
  isFile := isRegularFile
  names path := attempt? do
    let entries ← (entryOf path).root.readDir
    return entries.toList.map fun e => e.fileName
  readText path := do
    let bytes ← attempt? (IO.FS.readBinFile path)
    return bytes.bind String.fromUTF8?
  writeText path text := do
    let written ← attempt? (IO.FS.writeFile path text)
    return written.isSome

end JackCompiler

/-- Carry out the request of the command line. -/
def main (args : List String) : IO UInt32 := do
  let result ← JackCompiler.session JackCompiler.machineDisk args
  for e in result.errors do
    IO.eprintln ("ERROR " ++ e)
  IO.print result.output
  return UInt32.ofNat result.status
