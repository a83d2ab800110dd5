/-!
# Paths

A path is a text with slashes between its segments. The extension of a name is what follows its last
dot, unless the dot is the first character: such a name has no extension.
-/

namespace JackCompiler

/-- The last segment of a path and what stands before it, the last slash included. -/
def splitPath (path : String) : String × String :=
  let cs := path.toList.reverse
  (String.ofList (cs.dropWhile (· != '/')).reverse, String.ofList (cs.takeWhile (· != '/')).reverse)

/-- A name without its extension, and the extension if it has one. -/
def splitName (name : String) : String × Option String :=
  let cs := name.toList.reverse
  match cs.dropWhile (· != '.') with
  | '.' :: c :: stem =>
      (String.ofList (c :: stem).reverse, some (String.ofList (cs.takeWhile (· != '.')).reverse))
  | _ => (name, none)

/-- A path with the extension of its last segment replaced, or added where there is none. Without
its extension, a name whose stem is a single dot is the mark of the directory above; that mark takes
no extension, so the path ends there. -/
def withExtension (path extension : String) : String :=
  let (directory, name) := splitPath path
  match splitName name with
  | (".", some _) => directory ++ ".."
  | (stem, _) => directory ++ stem ++ "." ++ extension

/-- The path of a name in a directory. -/
def joinPath (directory name : String) : String :=
  if directory.toList.getLast? = some '/' then directory ++ name else directory ++ "/" ++ name

/-- The extension of source files. -/
def sourceExtension : String := "jack"

/-- The extension of the files that the compiler writes. -/
def listingExtension : String := "vm"

/-- A name is that of a source file when it has the extension of source files. -/
def isSourceName (name : String) : Bool :=
  (splitName name).2 == some sourceExtension

end JackCompiler
