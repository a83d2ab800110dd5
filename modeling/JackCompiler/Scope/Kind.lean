/-!
# Kinds of variables
-/

namespace JackCompiler

/-- Where a variable is declared: in the class, once or per object, or in a subroutine, as a
parameter or as a local variable. -/
inductive VariableKind where
  | static | field | argument | localVar
deriving DecidableEq, Repr

/-- The word that messages use for a kind of variable. -/
def VariableKind.text : VariableKind → String
  | static => "static"
  | field => "field"
  | argument => "argument"
  | localVar => "local"

end JackCompiler
