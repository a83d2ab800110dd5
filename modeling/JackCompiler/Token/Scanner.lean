import JackCompiler.Token.Lexeme

/-!
# Scanning a source

A scanner stands somewhere in a source and reads on from there, token by token. Before each token it
skips blanks, line comments, which end before a line break, and block comments, which end with the
first `*/` after their opening two characters and do not nest.

A scanner can be asked again after a complaint and after the end: it then reads on from where the
failed attempt left it.

## Implementation notes

Skipping is one walk with three modes, so that each character of the source is looked at once.
-/

namespace JackCompiler

/-- The part of a source still to be scanned and the number of bytes before it. -/
structure Scanner where
  offset : Nat
  rest : List Char
deriving DecidableEq, Repr

/-- Where a walk over blanks and comments stands. A block comment remembers where it began. -/
inductive Gap where
  | between
  | lineComment
  | blockComment (start : Nat)
deriving DecidableEq, Repr

/-- Walk over blanks and comments up to the next character of a token or the end of the source. -/
def skipGap : Gap → Nat → List Char → Except Complaint Unit × Scanner
  | .between, offset, '/' :: '/' :: cs => skipGap .lineComment (offset + 2) cs
  | .between, offset, '/' :: '*' :: cs => skipGap (.blockComment offset) (offset + 2) cs
  | .between, offset, c :: cs =>
      if isBlank c then skipGap .between (offset + c.utf8Size) cs else (.ok (), ⟨offset, c :: cs⟩)
  | .between, offset, [] => (.ok (), ⟨offset, []⟩)
  | .lineComment, offset, c :: cs =>
      if isLineBreak c then skipGap .between (offset + c.utf8Size) cs
      else skipGap .lineComment (offset + c.utf8Size) cs
  | .lineComment, offset, [] => (.ok (), ⟨offset, []⟩)
  | .blockComment _, offset, '*' :: '/' :: cs => skipGap .between (offset + 2) cs
  | .blockComment start, offset, c :: cs =>
      skipGap (.blockComment start) (offset + c.utf8Size) cs
  | .blockComment start, offset, [] =>
      (.error ⟨.lexical .unterminatedComment, start⟩, ⟨offset, []⟩)

namespace Scanner

/-- A scanner at the start of a source. -/
def ofSource (source : String) : Scanner :=
  ⟨0, source.toList⟩

/-- Read the lexeme where a scanner stands and give it its place. -/
def lexeme (s : Scanner) : Except Complaint Token × Scanner :=
  match readLexeme s.rest with
  | .token kind text rest =>
      let size := byteCount text
      (.ok ⟨kind, String.ofList text, ⟨s.offset, size⟩⟩, ⟨s.offset + size, rest⟩)
  | .refusal cause passed rest =>
      (.error ⟨.lexical cause, s.offset⟩, ⟨s.offset + byteCount passed, rest⟩)

/-- Scan the next token. -/
def next (s : Scanner) : Except Complaint Token × Scanner :=
  match skipGap .between s.offset s.rest with
  | (.error e, s') => (.error e, s')
  | (.ok (), s') => s'.lexeme

/-- The answers to a number of calls of `next`, one after the other. -/
def calls : Nat → Scanner → List (Except Complaint Token)
  | 0, _ => []
  | n + 1, s => let (r, s') := s.next; r :: calls n s'

/-- Scan tokens up to the end or the first complaint, in at most a given number of calls, given the
tokens so far in reverse order. -/
def tokensWithin : Nat → Scanner → List Token → List Token × Option Complaint
  | 0, _, tokens => (tokens.reverse, none)
  | n + 1, s, tokens =>
      match s.next with
      | (.error e, _) => (tokens.reverse, some e)
      | (.ok t, s') =>
          if t.kind = .finish then ((t :: tokens).reverse, none)
          else tokensWithin n s' (t :: tokens)

/-- The tokens from where a scanner stands, through the end of the source or up to the first
complaint. Each token but the last takes a character, so one call per character and one more are
enough. -/
def tokens (s : Scanner) : List Token × Option Complaint :=
  tokensWithin (s.rest.length + 1) s []

end Scanner

/-- What gives tokens when it is called for the next one, at an offset of its source. -/
class TokenFeed (S : Type) where
  next : S → Except Complaint Token × S
  offset : S → Nat

instance : TokenFeed Scanner := ⟨Scanner.next, Scanner.offset⟩

@[simp] theorem TokenFeed.next_scanner (s : Scanner) : TokenFeed.next s = s.next := rfl

@[simp] theorem TokenFeed.offset_scanner (s : Scanner) : TokenFeed.offset s = s.offset := rfl

end JackCompiler
