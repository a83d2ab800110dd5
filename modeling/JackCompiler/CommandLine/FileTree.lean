import JackCompiler.CommandLine.Session

/-!
# File trees

A tree of directories and files as a value, and the disk that it makes. A path is walked segment by
segment, from the root of the tree if it begins with a slash and from the working directory if not,
and every segment but the last has to be a directory. The root is the directory above itself.
-/

namespace JackCompiler

/-- The working directory, the directories below the root and the files of a tree, each as a path
from the root. -/
structure FileTree where
  workingDirectory : List String
  directories : List (List String)
  files : List (List String × ByteArray)

namespace FileTree

/-- The most bytes that a name can have. -/
def maxNameSize : Nat := 255

/-- The most bytes that a path can have. -/
def maxPathSize : Nat := 4095

/-- A path from the root is that of a directory. -/
def isDirectory (t : FileTree) (path : List String) : Bool :=
  path.isEmpty || t.directories.contains path

/-- The bytes of a file. -/
def find? (t : FileTree) (path : List String) : Option ByteArray :=
  t.files.lookup path

/-- Walk the segments of a path from a directory of the tree; the last may be new. -/
def walk? (t : FileTree) : List String → List String → Option (List String)
  | [], path => some path
  | segment :: segments, path =>
      if !t.isDirectory path || maxNameSize < segment.utf8ByteSize then none
      else if segment = "" || segment = "." then walk? t segments path
      else if segment = ".." then walk? t segments path.dropLast
      else walk? t segments (path ++ [segment])

/-- The segments of a path, between its slashes. -/
def segments (path : String) : List String :=
  (path.toList.splitOn '/').map String.ofList

/-- The path from the root that a path names. -/
def resolve? (t : FileTree) (path : String) : Option (List String) :=
  if path.isEmpty || maxPathSize < path.utf8ByteSize then none
  else t.walk? (segments path) (if path.toList.head? = some '/' then [] else t.workingDirectory)

/-- The names of what is in a directory. -/
def names (t : FileTree) (path : List String) : List String :=
  (t.directories ++ t.files.map Prod.fst).filterMap fun p =>
    if p.dropLast = path then p.getLast? else none

/-- Write a file, in place of one that was there. A directory cannot be written. -/
def write? (t : FileTree) (path : List String) (bytes : ByteArray) : Option FileTree :=
  if t.isDirectory path then none
  else some { t with files := (path, bytes) :: t.files.filter fun f => f.1 != path }

/-- The disk that a tree makes. -/
def disk : Disk (StateM FileTree) where
  isDirectory path := do
    let t ← get
    return (t.resolve? path).any t.isDirectory
  isFile path := do
    let t ← get
    return ((t.resolve? path).bind t.find?).isSome
  names path := do
    let t ← get
    return (t.resolve? path).map t.names
  readText path := do
    let t ← get
    return (t.resolve? path).bind fun p => (t.find? p).bind String.fromUTF8?
  writeText path text := do
    let t ← get
    match (t.resolve? path).bind fun p => t.write? p text.toUTF8 with
    | some t =>
        set t
        return true
    | none => return false

end FileTree

end JackCompiler
