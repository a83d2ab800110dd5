/-!
# Reserved words

The words that a program cannot use as names, in the order in which the language lists them: the
structure of a class, the primitive types, the constants and the statements.
-/

namespace JackCompiler

/-- A reserved word. -/
inductive Keyword where
  | classDecl | constructor | function | method | field | static | var
  | int | char | boolean | void
  | trueConst | falseConst | nullConst | this
  | letStmt | doStmt | ifStmt | elseBranch | whileStmt | returnStmt
deriving DecidableEq, Repr

namespace Keyword

/-- The spelling of a reserved word. -/
def text : Keyword → String
  | classDecl => "class"
  | constructor => "constructor"
  | function => "function"
  | method => "method"
  | field => "field"
  | static => "static"
  | var => "var"
  | int => "int"
  | char => "char"
  | boolean => "boolean"
  | void => "void"
  | trueConst => "true"
  | falseConst => "false"
  | nullConst => "null"
  | this => "this"
  | letStmt => "let"
  | doStmt => "do"
  | ifStmt => "if"
  | elseBranch => "else"
  | whileStmt => "while"
  | returnStmt => "return"

/-- All reserved words. -/
def all : List Keyword :=
  [classDecl, constructor, function, method, field, static, var, int, char, boolean, void,
    trueConst, falseConst, nullConst, this, letStmt, doStmt, ifStmt, elseBranch, whileStmt,
    returnStmt]

theorem mem_all (k : Keyword) : k ∈ all := by
  cases k <;> decide

/-- The reserved word with a given spelling. -/
def ofText? (t : String) : Option Keyword :=
  all.find? fun k => k.text == t

@[simp] theorem ofText?_text (k : Keyword) : ofText? k.text = some k := by
  cases k <;> decide

/-- Only the exact spelling makes a reserved word. -/
theorem ofText?_eq_some_iff {t : String} {k : Keyword} : ofText? t = some k ↔ k.text = t := by
  refine ⟨fun h => ?_, fun h => h ▸ ofText?_text k⟩
  simpa using List.find?_some h

/-- The words that begin a statement. -/
def beginsStatement : Keyword → Bool
  | letStmt | doStmt | ifStmt | whileStmt | returnStmt => true
  | _ => false

/-- The two truth values. -/
def isBoolean : Keyword → Bool
  | trueConst | falseConst => true
  | _ => false

/-- The words that begin a class variable declaration. -/
def beginsClassVariable : Keyword → Bool
  | static | field => true
  | _ => false

/-- The words that begin a subroutine. -/
def beginsSubroutine : Keyword → Bool
  | constructor | function | method => true
  | _ => false

end Keyword

end JackCompiler
