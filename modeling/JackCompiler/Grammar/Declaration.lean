import JackCompiler.Grammar.Statement

/-!
# The grammar of declarations

A source holds one class and nothing after it. The journal notes a class and a subroutine as soon as
its name has been read.
-/

namespace JackCompiler

variable {S : Type} [TokenFeed S]

/-- The primitive type that a reserved word writes. -/
def VarType.ofKeyword? : Keyword → Option VarType
  | .int => some .int
  | .char => some .char
  | .boolean => some .boolean
  | _ => none

/-- Read a type. -/
def varType : ProductionOver S VarType := do
  match (← get).current.kind with
  | .identifier => return .object (← name).text
  | .keyword k =>
      match VarType.ofKeyword? k with
      | some type =>
          slide
          return type
      | none => expected "a type"
  | _ => expected "a type"

/-- The kind of class variables that a reserved word announces. -/
def ClassVariableKind.ofKeyword? : Keyword → Option ClassVariableKind
  | .static => some .static
  | .field => some .field
  | _ => none

/-- The kind of subroutine that a reserved word announces. -/
def SubroutineKind.ofKeyword? : Keyword → Option SubroutineKind
  | .constructor => some .constructor
  | .function => some .function
  | .method => some .method
  | _ => none

/-- Read a line of class variables. -/
def classVariables : ProductionOver S ClassVariables := do
  match (← get).keyword?.bind ClassVariableKind.ofKeyword? with
  | some kind =>
      slide
      let type ← varType
      let names ← commaSeparated name
      let _ ← take (.symbol .semicolon)
      return ⟨kind, type, names⟩
  | none => expected "'static' or 'field'"

/-- Read a parameter. -/
def parameter : ProductionOver S Parameter := do
  let type ← varType
  let n ← name
  return ⟨type, n⟩

/-- Read the parameters of a subroutine, between parentheses. -/
def parameters : ProductionOver S (List Parameter) :=
  parenthesised parameter

/-- Read a line of local variables. -/
def localVariables : ProductionOver S LocalVariables := do
  let _ ← take (.keyword .var)
  let type ← varType
  let names ← commaSeparated name
  let _ ← take (.symbol .semicolon)
  return ⟨type, names⟩

/-- Read the braces of a subroutine. -/
def body : ProductionOver S Body := do
  let _ ← take (.symbol .leftBrace)
  let locals ← repeatWhile (fun w => w.isAt (.keyword .var)) localVariables
  let stmts ← block statement
  blockEnd
  return ⟨locals, stmts⟩

/-- Read what a subroutine returns, which may be nothing. -/
def returnType : ProductionOver S (Option VarType) := do
  if ← accept (.keyword .void) then return none else return some (← varType)

/-- Read a subroutine. -/
def subroutine : ProductionOver S Subroutine := do
  match (← get).keyword?.bind SubroutineKind.ofKeyword? with
  | some kind =>
      slide
      let returns ← returnType
      let n ← name
      record (.readingSubroutine kind n.text)
      let ps ← parameters
      let b ← body
      return ⟨kind, returns, n, ps, b⟩
  | none => expected "'constructor', 'function' or 'method'"

/-- A member of a class. -/
inductive Member where
  | vars (v : ClassVariables)
  | subroutine (s : Subroutine)

/-- Read a member of a class. -/
def member : ProductionOver S Member := do
  if (← get).atKeyword Keyword.beginsClassVariable then
    return .vars (← classVariables)
  else if (← get).atKeyword Keyword.beginsSubroutine then
    return .subroutine (← subroutine)
  else
    expected ("class variable, subroutine or " ++ (Kind.symbol .rightBrace).description)

/-- The lines of variables among the members of a class. -/
def Member.vars? : Member → Option ClassVariables
  | vars v => some v
  | subroutine _ => none

/-- The subroutines among the members of a class. -/
def Member.subroutine? : Member → Option Subroutine
  | vars _ => none
  | subroutine s => some s

/-- Read a class, priming the window if that has not happened yet. -/
def classTree : ProductionOver S ClassTree := do
  if !(← get).primed then slide
  let _ ← take (.keyword .classDecl)
  let n ← name
  record (.readingClass n.text)
  let _ ← take (.symbol .leftBrace)
  let members ← repeatWhile (fun w => !w.atSymbol .rightBrace) member
  let _ ← take (.symbol .rightBrace)
  if (← get).hasMore then expected "end-of-file after class"
  return ⟨n, members.filterMap Member.vars?, members.filterMap Member.subroutine?⟩

/-- Read the class of a source, with the journal of reading it. -/
def readClass (source : String) : Except Complaint ClassTree × List Record :=
  match classTree (Window.ofSource source) with
  | .ok tree w => (.ok tree, w.records)
  | .error e w => (.error e, w.records)

end JackCompiler
