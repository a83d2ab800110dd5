import JackCompiler.Machine.Limits
import JackCompiler.Scope.Kind
import JackCompiler.Text.Location
import JackCompiler.Text.Quoted

/-!
# Complaints about a source

Each phase has its own causes of complaint. A phase reports a cause with the offset of the offending
token; the offset becomes a location once the source that it counts in is at hand. The wording of
all complaints is here.
-/

namespace JackCompiler

/-- What keeps characters from forming a token. -/
inductive LexicalCause where
  | unknownCharacter (c : Char)
  | unterminatedText
  | unterminatedComment
  | malformedName (word : String)
deriving DecidableEq, Repr

/-- What keeps tokens from forming a class. -/
inductive GrammarCause where
  | unexpected (found expected : String)
  | unexpectedEnd (expected : String)
  | integerOutOfRange (digits : String)
  | stated (message : String)
deriving DecidableEq, Repr

/-- What keeps a well-formed class from being compiled. -/
inductive MeaningCause where
  | undefinedVariable (name : String)
  | characterOutOfRange (c : Char)
  | textTooLong (length : Nat)
  | tooManyVariables (kind : VariableKind)
deriving DecidableEq, Repr

/-- The cause of a complaint, by phase. -/
inductive Cause where
  | lexical (cause : LexicalCause)
  | grammar (cause : GrammarCause)
  | meaning (cause : MeaningCause)
deriving DecidableEq, Repr

/-- The wording of a lexical cause. -/
def LexicalCause.message : LexicalCause → String
  | unknownCharacter c => "unknown character " ++ quoteCharacter c
  | unterminatedText => "unterminated string constant"
  | unterminatedComment => "unterminated block comment"
  | malformedName word => "identifiers can't start with a digit: " ++ word

/-- The wording of a grammatical cause. -/
def GrammarCause.message : GrammarCause → String
  | unexpected found expected => "unexpected token '" ++ found ++ "', expected " ++ expected
  | unexpectedEnd expected => "unexpected end-of-file, expected " ++ expected
  | integerOutOfRange digits =>
      "integer constant " ++ digits ++ " is out of range 0..=" ++ toString maxConstant
  | stated message => message

/-- The wording of a cause that concerns the meaning of a class. -/
def MeaningCause.message : MeaningCause → String
  | undefinedVariable name => "undefined variable '" ++ name ++ "'"
  | characterOutOfRange c =>
      "character " ++ quoteCharacter c ++ " is outside the constant range 0..=" ++
        toString maxConstant
  | textTooLong length =>
      "string constant of " ++ toString length ++ " characters is longer than " ++
        toString maxConstant
  | tooManyVariables kind =>
      "too many " ++ kind.text ++ " variables, at most " ++ toString maxVariables ++ " per scope"

/-- The name of the phase that a cause belongs to. -/
def Cause.phase : Cause → String
  | lexical _ => "lexical"
  | grammar _ => "syntax"
  | meaning _ => "compile"

/-- The wording of a cause. -/
def Cause.message : Cause → String
  | lexical cause => cause.message
  | grammar cause => cause.message
  | meaning cause => cause.message

/-- A cause with the offset of the token that it concerns. -/
structure Complaint where
  cause : Cause
  offset : Nat
deriving DecidableEq, Repr

/-- A cause with its location in a source. -/
structure Diagnosis where
  cause : Cause
  location : Location
deriving DecidableEq, Repr

/-- A diagnosis as shown to a reader: phase, place and wording on one line, and the location. -/
def Diagnosis.render (d : Diagnosis) : String :=
  d.cause.phase ++ " error at " ++ toString d.location.line ++ ":" ++
    toString d.location.column ++ ": " ++ d.cause.message ++ "\n" ++ d.location.render

/-- A diagnosis as shown, where its location can be. -/
def Diagnosis.render? (d : Diagnosis) : Option String :=
  d.location.render?.map fun _ => d.render

/-- Locate a complaint in a source; its offset has to stand between characters there. -/
def Complaint.diagnosis? (c : Complaint) (source : String) : Option Diagnosis :=
  (Location.of? source c.offset).map fun l => ⟨c.cause, l⟩

end JackCompiler
