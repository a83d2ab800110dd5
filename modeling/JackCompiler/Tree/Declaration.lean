import JackCompiler.Tree.Statement

/-!
# Trees of declarations

A source holds one class: its variables and its subroutines, each in source order.
-/

namespace JackCompiler

/-- The type of a variable: a primitive one, or the objects of a named class. -/
inductive VarType where
  | int | char | boolean
  | object (className : String)
deriving DecidableEq, Repr

/-- The spelling of a type, which for objects is the name of their class. -/
def VarType.text : VarType → String
  | int => "int"
  | char => "char"
  | boolean => "boolean"
  | object className => className

/-- Whether a class variable exists once or in every object. -/
inductive ClassVariableKind where
  | static | field
deriving DecidableEq, Repr

/-- One line of class variables. -/
structure ClassVariables where
  kind : ClassVariableKind
  type : VarType
  names : List Name
deriving DecidableEq, Repr

/-- How a subroutine relates to objects of its class: it makes one, ignores them or works on one. -/
inductive SubroutineKind where
  | constructor | function | method
deriving DecidableEq, Repr

/-- The name that log records give a kind of subroutine. -/
def SubroutineKind.name : SubroutineKind → String
  | constructor => "Constructor"
  | function => "Function"
  | method => "Method"

/-- A parameter of a subroutine. -/
structure Parameter where
  type : VarType
  name : Name
deriving DecidableEq, Repr

/-- One line of local variables. -/
structure LocalVariables where
  type : VarType
  names : List Name
deriving DecidableEq, Repr

/-- The braces of a subroutine: its local variables and its statements. -/
structure Body where
  locals : List LocalVariables
  block : List Stmt

/-- The number of local variables on all lines of a body. -/
def Body.localCount (b : Body) : Nat :=
  (b.locals.flatMap LocalVariables.names).length

/-- A subroutine. One that is declared without a return type returns nothing of use. -/
structure Subroutine where
  kind : SubroutineKind
  returns : Option VarType
  name : Name
  parameters : List Parameter
  body : Body

/-- The class of a source. -/
structure ClassTree where
  name : Name
  vars : List ClassVariables
  subroutines : List Subroutine

end JackCompiler
