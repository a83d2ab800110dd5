import JackCompiler.Options

/-!
# Arguments of the command line
-/

namespace JackCompiler

/-- What a user asks for. -/
inductive Request where
  | compile (path : String) (options : Options)
  | tokens (path : String)
deriving DecidableEq, Repr

/-- Read the arguments after `compile`, given the path seen so far: flags and one path, in any
order. Whatever else begins with two dashes is refused. -/
def compileRequest? : List String → Option String → Options → Option Request
  | [], path, options => path.map fun p => .compile p options
  | arg :: args, path, options =>
      if arg = "--nested-if-labels" then
        compileRequest? args path { options with ifNumbering := .nested }
      else if arg = "--left-to-right" then
        compileRequest? args path { options with operatorOrder := .leftToRight }
      else if "--".isPrefixOf arg then none
      else if path.isNone then compileRequest? args (some arg) options
      else none

/-- The request that arguments make, if they make one. -/
def Request.ofArguments? : List String → Option Request
  | "compile" :: args => compileRequest? args none .standard
  | "tokens" :: path :: _ => some (.tokens path)
  | _ => none

/-- The name and version of the program, and how it is used. -/
def usage : String :=
  "jackc v0.1.0\n" ++
  "\n" ++
  "usage: jackc CMD PATH [OPTIONS]\n" ++
  "\n" ++
  "commands:\n" ++
  "    compile   Compile a .jack file, or every .jack file in a directory.\n" ++
  "              Each class is written next to its source as a .vm file.\n" ++
  "    tokens    Print the token table of a .jack file\n" ++
  "\n" ++
  "options:\n" ++
  "    --nested-if-labels   Number if labels like the legacy toolchain\n" ++
  "    --left-to-right      Apply operators as soon as their operands are pushed\n" ++
  "\n" ++
  "examples:\n" ++
  "    jackc compile Main.jack\n" ++
  "    jackc compile Square/ --left-to-right\n" ++
  "    jackc tokens Main.jack\n" ++
  "\n"

end JackCompiler
