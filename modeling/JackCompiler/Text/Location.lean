import JackCompiler.Text.Span

/-!
# Locations

A location tells a reader where in a source an offence stands: its line and column, both counted
from one, and the text of that line. Lines end at line feeds and columns count characters.

## Implementation notes

The place of an offset is found by one walk from the start of the text, and the line around it by a
second one. In that second walk a carriage return directly after a line feed belongs to the break
rather than to the line that follows, as long as the line feed stands before the offset.
-/

namespace JackCompiler

/-- A line and a column, both counted from one. -/
structure Place where
  line : Nat
  column : Nat
deriving DecidableEq, Repr

/-- The place of the first character of a text. -/
def Place.first : Place :=
  ⟨1, 1⟩

/-- The place just after a character. -/
def Place.after (p : Place) (c : Char) : Place :=
  if c = '\n' then ⟨p.line + 1, 1⟩ else ⟨p.line, p.column + 1⟩

/-- Walk a number of bytes from a place; the walk stops at the end of the text, and it fails where
it would stop inside a character. -/
def Place.walk? : Nat → List Char → Place → Option Place
  | 0, _, p => some p
  | _ + 1, [], p => some p
  | n + 1, c :: cs, p =>
      if c.utf8Size ≤ n + 1 then Place.walk? (n + 1 - c.utf8Size) cs (p.after c) else none

/-- The place of a byte offset in a text; an offset past the end counts as the end. -/
def Place.of? (text : List Char) (offset : Nat) : Option Place :=
  Place.walk? offset text Place.first

/-- Read on for the line around a target offset, given the offset reached, the start of the line
reached and the characters of that line so far in reverse order. -/
def lineAroundFrom (target : Nat) : Nat → Nat → List Char → List Char → Nat × List Char
  | _, start, line, [] => (start, line.reverse)
  | offset, start, line, '\n' :: '\r' :: cs =>
      if offset < target then lineAroundFrom target (offset + 2) (offset + 2) [] cs
      else (start, line.reverse)
  | offset, start, line, '\n' :: cs =>
      if offset < target then lineAroundFrom target (offset + 1) (offset + 1) [] cs
      else (start, line.reverse)
  | offset, start, line, c :: cs =>
      lineAroundFrom target (offset + c.utf8Size) start (c :: line) cs

/-- The line of a text around an offset, with the offset at which the line starts. -/
def lineAround (text : List Char) (offset : Nat) : Nat × List Char :=
  lineAroundFrom offset 0 0 [] text

/-- The characters of a line without the carriage returns at its end. -/
def trimReturns (line : List Char) : List Char :=
  (line.reverse.dropWhile (· == '\r')).reverse

/-- A place in a source together with the text of its line. -/
structure Location where
  line : Nat
  column : Nat
  text : String
deriving DecidableEq, Repr

/-- The location of an offset, if the offset does not fall inside a character. -/
def Location.of? (source : String) (offset : Nat) : Option Location :=
  let text := source.toList
  (Place.of? text offset).map fun p =>
    { line := p.line
      column := p.column
      text := String.ofList (trimReturns (lineAround text offset).2) }

/-- A number of spaces. -/
def spaces (n : Nat) : String :=
  String.ofList (List.replicate n ' ')

/-- A location as three lines: an empty one, the numbered line of the source, and a caret under the
column. -/
def Location.render (l : Location) : String :=
  let number := toString l.line
  let gutter := spaces number.length
  gutter ++ " |\n" ++ number ++ " | " ++ l.text ++ "\n" ++
    gutter ++ " | " ++ spaces (l.column - 1) ++ "^"

/-- The widest that a text can be set. -/
def maxWidth : Nat := 65535

/-- A location as shown. The caret is set in a field as wide as its column, so there is no way to
show a location too far to the right. -/
def Location.render? (l : Location) : Option String :=
  if l.column ≤ maxWidth then some l.render else none

end JackCompiler
