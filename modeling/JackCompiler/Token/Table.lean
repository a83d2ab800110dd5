import JackCompiler.Token.Scanner

/-!
# Token tables

A token table has a header and one row for each token of a source, through its end or up to the
first complaint: the offset and size of the token, its category, and its text with entities in place
of symbols of markup.

A table is written to a sink that may take a limited number of characters. What fits is kept, and no
row is begun once one did not fit.
-/

namespace JackCompiler

/-- A sink of characters: how many it can still take if they are limited, and what it holds. -/
structure TextSink where
  room : Option Nat
  content : String
deriving DecidableEq, Repr

/-- Write a text to a sink of characters; the answer tells whether all of it fitted. -/
def TextSink.write (s : TextSink) (text : String) : Bool × TextSink :=
  match s with
  | ⟨none, content⟩ => (true, ⟨none, content ++ text⟩)
  | ⟨some room, content⟩ =>
      if text.length ≤ room then (true, ⟨some (room - text.length), content ++ text⟩)
      else (false, ⟨some 0, content ++ String.ofList (text.toList.take room)⟩)

/-- A text with spaces before it, up to a width. -/
def padLeft (width : Nat) (text : String) : String :=
  spaces (width - text.length) ++ text

/-- A text with spaces after it, up to a width. -/
def padRight (width : Nat) (text : String) : String :=
  text ++ spaces (width - text.length)

/-- The first line of a token table. -/
def tableHeader : String :=
  " offset:len  category         text\n"

/-- The row of a token in a token table. -/
def Token.row (t : Token) : String :=
  padLeft 7 (toString t.span.start) ++ ":" ++ padRight 3 (toString t.span.size) ++ " " ++
    padRight 16 t.kind.category.text ++ " " ++ t.markup ++ "\n"

/-- Why a table was not finished. -/
inductive TableFault where
  | complaint (c : Complaint)
  | full
deriving DecidableEq, Repr

/-- What came of writing a table: the sink, the tokens scanned for it and why it was not finished. -/
structure TableReport where
  sink : TextSink
  scanned : List Token
  fault : Option TableFault
deriving DecidableEq, Repr

/-- Write the rows of tokens, given the tokens whose rows were begun before in reverse order, and
end with a fault of the source if there is one. -/
def writeRows (sourceFault : Option Complaint) : List Token → TextSink → List Token → TableReport
  | [], sink, begun => ⟨sink, begun.reverse, sourceFault.map .complaint⟩
  | t :: ts, sink, begun =>
      match sink.write t.row with
      | (true, sink') => writeRows sourceFault ts sink' (t :: begun)
      | (false, sink') => ⟨sink', (t :: begun).reverse, some .full⟩

/-- Write the table of tokens, which ends with a fault of their source if there is one. -/
def writeTokens (tokens : List Token × Option Complaint) (sink : TextSink) : TableReport :=
  match sink.write tableHeader with
  | (true, sink') => writeRows tokens.2 tokens.1 sink' []
  | (false, sink') => ⟨sink', [], some .full⟩

/-- Write the token table of a source. -/
def writeTable (source : String) (sink : TextSink) : TableReport :=
  writeTokens (Scanner.ofSource source).tokens sink

end JackCompiler
