import JackCompiler.Token.Scanner

/-!
# Scanning with offsets in words

A cursor stands at a byte of a source and gives its tokens with their offsets in words. Where words
reach to the end of the source it gives what a scanner gives. In a longer source bytes that are a
whole number of word ranges apart have the same offset, and what is said of the later one is taken
from the earlier one: the text of a token is the piece at its span, which stands somewhere else, and
for a word that text also decides the kind.

A span may have its ends inside characters there, or run backwards, and then no text can be had for
the token. Nothing goes on behind such a token: the cursor is torn.

## Implementation notes

A cursor looks at the bytes of a source where they are, so that a source is not taken apart into a
list of characters. How far a token goes is found first, from the characters at hand; its text is
cut out afterwards.
-/

namespace JackCompiler

/-- A source, the byte of it that is reached, and whether a token was met whose text cannot be
had. -/
structure Cursor where
  source : String
  offset : Nat
  torn : Bool
deriving DecidableEq, Repr

/-- The character at a byte of a source. -/
def charAt? (source : String) (i : Nat) : Option Char :=
  if i < source.utf8ByteSize then some (String.Pos.Raw.get source ⟨i⟩) else none

/-- Walk from a byte over blanks and comments. The answer is the byte reached: that of the next
character of a token or the end, with the start of the last comment if it does not end. -/
def skipFrom (source : String) (gap : Gap) (i : Nat) : Option Nat × Nat :=
  if _ : i < source.utf8ByteSize then
    let c := String.Pos.Raw.get source ⟨i⟩
    match gap with
    | .between =>
        if c == '/' && charAt? source (i + 1) == some '/' then
          skipFrom source .lineComment (i + 2)
        else if c == '/' && charAt? source (i + 1) == some '*' then
          skipFrom source (.blockComment i) (i + 2)
        else if isBlank c then skipFrom source .between (i + c.utf8Size)
        else (none, i)
    | .lineComment =>
        if isLineBreak c then skipFrom source .between (i + c.utf8Size)
        else skipFrom source .lineComment (i + c.utf8Size)
    | .blockComment start =>
        if c == '*' && charAt? source (i + 1) == some '/' then
          skipFrom source .between (i + 2)
        else skipFrom source (.blockComment start) (i + c.utf8Size)
  else
    match gap with
    | .blockComment start => (some start, i)
    | _ => (none, i)
termination_by source.utf8ByteSize - i
decreasing_by
  all_goals
    have hsize := (String.Pos.Raw.get source ⟨i⟩).utf8Size_pos
    omega

/-- The byte behind the characters from a byte on that have a property. -/
def runEnd (p : Char → Bool) (source : String) (i : Nat) : Nat :=
  if _ : i < source.utf8ByteSize then
    let c := String.Pos.Raw.get source ⟨i⟩
    if p c then runEnd p source (i + c.utf8Size) else i
  else i
termination_by source.utf8ByteSize - i
decreasing_by
  have hsize := (String.Pos.Raw.get source ⟨i⟩).utf8Size_pos
  omega

/-- What is found of a token before its text is had. A refused piece has a reach, which may be
farther than it was passed. -/
inductive Shape where
  | word
  | text
  | symbol (s : Symbol)
  | finish
  | refusal (cause : LexicalCause) (reach : Nat)
deriving DecidableEq, Repr

/-- The shape of the token at a byte, with the byte up to which it was passed. -/
def shapeAt (source : String) (i : Nat) : Shape × Nat :=
  match charAt? source i with
  | none => (.finish, i)
  | some c =>
      if c = '"' then
        let stop := runEnd isTextChar source (i + 1)
        match charAt? source stop with
        | some d =>
            if d = '"' then (.text, stop + 1) else (.refusal .unterminatedText (stop + 1), stop)
        | none => (.refusal .unterminatedText stop, stop)
      else if isWordChar c then (.word, runEnd isWordChar source i)
      else match Symbol.ofChar? c with
        | some s => (.symbol s, i + c.utf8Size)
        | none => (.refusal (.unknownCharacter c) i, i)

/-- What a call is answered at a token of a given shape from one byte to another, and the byte where
the next call begins. The text of the token is the piece at its span, and a string constant is cut
once more behind its first byte and before its last one. A refused piece is located by what stands
before its span. There is no answer where the words of a span run backwards or a piece cannot be
cut. -/
def Shape.answer? (cut? : Span → Option String) (start stop : Nat) :
    Shape → Option (Except Complaint Token × Nat)
  | word => do
      let span ← Span.between? start stop
      let text ← cut? span
      match wordKind text.toList with
      | .ok kind => return (.ok ⟨kind, text, span⟩, stop)
      | .error cause => return (.error ⟨.lexical cause, span.start⟩, stop - 1)
  | text => do
      let span ← Span.between? start stop
      let text ← cut? span
      let _ ← (if 2 ≤ span.size then cut? ⟨span.start + 1, span.size - 2⟩ else none)
      return (.ok ⟨.text, text, span⟩, stop)
  | symbol s => do
      let span ← Span.between? start stop
      return (.ok ⟨.symbol s, ← cut? span, span⟩, stop)
  | finish => do
      let span ← Span.between? start stop
      return (.ok ⟨.finish, ← cut? span, span⟩, stop)
  | refusal cause reach => do
      let span ← Span.between? start reach
      let _ ← cut? ⟨span.start, 0⟩
      return (.error ⟨.lexical cause, span.start⟩, stop)

namespace Cursor

/-- A cursor at the start of a source. -/
def ofSource (source : String) : Cursor :=
  ⟨source, 0, false⟩

/-- What stands for an answer when a cursor is torn. It is not shown to anyone. -/
def tear : Complaint :=
  ⟨.grammar (.stated "the text of a token cannot be had"), 0⟩

/-- What a cursor answers at a token of a given shape from one byte to another. -/
def answer (c : Cursor) (start : Nat) (shape : Shape) (stop : Nat) :
    Except Complaint Token × Cursor :=
  match shape.answer? (fun s => s.cut? c.source) start stop with
  | some (r, i) => (r, { c with offset := i })
  | none => (.error tear, { c with torn := true })

/-- Scan the next token. -/
def next (c : Cursor) : Except Complaint Token × Cursor :=
  match skipFrom c.source .between c.offset with
  | (some start, i) => c.answer start (.refusal .unterminatedComment i) i
  | (none, i) => let (shape, stop) := shapeAt c.source i; c.answer i shape stop

end Cursor

instance : TokenFeed Cursor := ⟨Cursor.next, Cursor.offset⟩

/-- The tokens that a feed gives through the end of its source or up to the first complaint, in at
most a given number of calls, given the tokens so far in reverse order. -/
def drain {S : Type} [TokenFeed S] : Nat → S → List Token → (List Token × Option Complaint) × S
  | 0, s, tokens => ((tokens.reverse, none), s)
  | n + 1, s, tokens =>
      match TokenFeed.next s with
      | (.error e, s') => ((tokens.reverse, some e), s')
      | (.ok t, s') =>
          if t.kind = .finish then (((t :: tokens).reverse, none), s')
          else drain n s' (t :: tokens)

/-- The tokens from where a cursor stands, through the end of the source or up to the first
complaint. Each token but the last takes a byte. -/
def Cursor.tokens (c : Cursor) : (List Token × Option Complaint) × Cursor :=
  drain (c.source.utf8ByteSize - c.offset + 1) c []

end JackCompiler
