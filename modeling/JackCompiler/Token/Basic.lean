import JackCompiler.Text.Span
import JackCompiler.Token.Keyword
import JackCompiler.Token.Symbol

/-!
# Tokens

A token is a piece of a source with the kind that the language gives it. The end of a source is a
token of its own, with an empty text.
-/

namespace JackCompiler

/-- What a token is to the grammar. -/
inductive Kind where
  | symbol (s : Symbol)
  | keyword (k : Keyword)
  | identifier
  | number
  | text
  | finish
deriving DecidableEq, Repr

/-- The lexical category that a token table shows. -/
inductive Category where
  | keyword | symbol | integerConstant | stringConstant | identifier | endOfSource
deriving DecidableEq, Repr

/-- The word that a token table shows for a category. -/
def Category.text : Category → String
  | keyword => "keyword"
  | symbol => "symbol"
  | integerConstant => "integerConstant"
  | stringConstant => "stringConstant"
  | identifier => "identifier"
  | endOfSource => "end-of-source"

namespace Kind

/-- The lexical category of a kind. -/
def category : Kind → Category
  | symbol _ => .symbol
  | keyword _ => .keyword
  | identifier => .identifier
  | number => .integerConstant
  | text => .stringConstant
  | finish => .endOfSource

/-- How a message names a kind of token. -/
def description : Kind → String
  | symbol s => "'" ++ s.char.toString ++ "'"
  | keyword k => "'" ++ k.text ++ "'"
  | identifier => "identifier"
  | number => "integer constant"
  | text => "string constant"
  | finish => "end-of-file"

/-- How a log record names a kind of token. -/
def name : Kind → String
  | symbol s => s.name
  | keyword k => "Keyword(" ++ k.text.capitalize ++ ")"
  | identifier => "Ident"
  | number => "Number"
  | text => "String"
  | finish => "EOF"

/-- The reserved word of a kind. -/
def keyword? : Kind → Option Keyword
  | keyword k => some k
  | _ => none

/-- A kind is a reserved word with a given property. -/
def isKeyword (p : Keyword → Bool) (k : Kind) : Bool :=
  k.keyword?.any p

end Kind

/-- A piece of a source, its kind and its place. A string constant keeps its quotes. -/
structure Token where
  kind : Kind
  text : String
  span : Span
deriving DecidableEq, Repr

/-- The end of a source of a given size. -/
def Token.finish (size : Nat) : Token :=
  ⟨.finish, "", ⟨size, 0⟩⟩

/-- The text of a token, with an entity in place of a symbol of markup. -/
def Token.markup (t : Token) : String :=
  match t.kind with
  | .symbol s => (markupEntity? s.char).getD t.text
  | _ => t.text

end JackCompiler
