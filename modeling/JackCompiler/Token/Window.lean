import JackCompiler.Journal
import JackCompiler.Token.Cursor

/-!
# Windows over the tokens of a source

A window shows three neighbouring tokens: the previous one, the current one and one token of
lookahead. It slides over the tokens that a feed gives, a scanner or a cursor on a source; they are
scanned only when they come into view.

A window is primed by its first slide, which scans two tokens; each later slide scans exactly one.
When scanning fails, a primed window keeps its tokens, while the scanner has moved. A window that is
being primed may by then have its current token and stays unprimed.
-/

namespace JackCompiler

/-- A window over the tokens of a source of a given size, with the scanner or the other feed that it
takes them from and the journal of what it scanned and what was read from it, newest record first. -/
structure Window (S : Type := Scanner) where
  size : Nat
  scanner : S
  previous : Option Token
  current : Token
  lookahead : Token
  primed : Bool
  journal : List Record
deriving DecidableEq, Repr

/-- What is read from the tokens of a window, or a complaint about them, for windows over a feed. -/
abbrev ProductionOver (S : Type) := EStateM Complaint (Window S)

/-- What is read from the tokens of a window over a scanner, or a complaint about them. -/
abbrev Production := EStateM Complaint Window

variable {S : Type}

namespace Window

/-- A window that has not been primed, before the first token of a source. -/
def ofSource (source : String) : Window :=
  let size := byteCount source.toList
  { size := size
    scanner := Scanner.ofSource source
    previous := none
    current := Token.finish size
    lookahead := Token.finish size
    primed := false
    journal := [] }

/-- The same with a cursor on the source. -/
def ofCursor (source : String) : Window Cursor :=
  let finish := Token.finish (wordOf source.utf8ByteSize)
  { size := source.utf8ByteSize
    scanner := Cursor.ofSource source
    previous := none
    current := finish
    lookahead := finish
    primed := false
    journal := [] }

/-- The records of the journal in order. -/
def records (w : Window S) : List Record :=
  w.journal.reverse

/-- More tokens follow until the end of the source is current. -/
def hasMore (w : Window S) : Bool :=
  w.current.kind != .finish

/-- A bound on the tokens still to come into view, the current one included. -/
def remaining [TokenFeed S] (w : Window S) : Nat :=
  (w.size - TokenFeed.offset w.scanner) + (if w.current.kind = .finish then 0 else 1) +
    (if w.lookahead.kind = .finish then 0 else 1)

/-- The current token has a given kind. -/
def isAt (w : Window S) (kind : Kind) : Bool :=
  w.current.kind == kind

/-- The current token is a given symbol. -/
def atSymbol (w : Window S) (s : Symbol) : Bool :=
  w.isAt (.symbol s)

/-- The reserved word that is current. -/
def keyword? (w : Window S) : Option Keyword :=
  w.current.kind.keyword?

/-- The current token is a reserved word with a given property. -/
def atKeyword (w : Window S) (p : Keyword → Bool) : Bool :=
  w.current.kind.isKeyword p

/-- The binary operator that the current token writes. -/
def binary? (w : Window S) : Option BinaryOp :=
  match w.current.kind with
  | .symbol s => BinaryOp.ofSymbol? s
  | _ => none

/-- The unary operator that the current token writes. -/
def unary? (w : Window S) : Option UnaryOp :=
  match w.current.kind with
  | .symbol s => UnaryOp.ofSymbol? s
  | _ => none

/-- The name that is current. -/
def name? (w : Window S) : Option String :=
  if w.current.kind = .identifier then some w.current.text else none

/-- The digits of the integer constant that is current. -/
def digits? (w : Window S) : Option String :=
  if w.current.kind = .number then some w.current.text else none

/-- The contents of the string constant that is current, without its quotes. -/
def contents? (w : Window S) : Option String :=
  if w.current.kind = .text then some (String.ofList (w.current.text.toList.drop 1).dropLast)
  else none

/-- The current token follows a dot, as the name of the subroutine in a qualified call does. -/
def afterDot (w : Window S) : Bool :=
  w.previous.any fun t => t.kind == .symbol .dot

/-- The complaint that the current token is not what was expected. -/
def unexpected (w : Window S) (expected : String) : Complaint :=
  let cause := match w.current.kind with
    | .finish => GrammarCause.unexpectedEnd expected
    | _ => GrammarCause.unexpected w.current.text expected
  ⟨.grammar cause, w.current.span.start⟩

end Window

/-- Add a record to the journal. -/
def record (r : Record) : ProductionOver S Unit :=
  modify fun w => { w with journal := r :: w.journal }

/-- Complain about the current token. -/
def expected {α : Type} (what : String) : ProductionOver S α := do
  throw ((← get).unexpected what)

section Sliding

variable [TokenFeed S]

/-- Scan the next token of the source. -/
def scan : ProductionOver S Token := fun w =>
  match TokenFeed.next w.scanner with
  | (.ok t, s) => .ok t { w with scanner := s, journal := .scanned t :: w.journal }
  | (.error e, s) => .error e { w with scanner := s }

/-- Slide the window by one token. -/
def slide : ProductionOver S Unit := do
  if (← get).primed then
    let next ← scan
    modify fun w =>
      { w with previous := some w.current, current := w.lookahead, lookahead := next }
  else
    let first ← scan
    modify fun w => { w with current := first }
    let second ← scan
    modify fun w => { w with lookahead := second, primed := true }

/-- Take the current token, which has to be of a given kind, and slide past it. -/
def take (kind : Kind) : ProductionOver S Token := do
  let token := (← get).current
  if token.kind = kind then
    slide
    return token
  else
    expected kind.description

/-- Slide past the current token if it is of a given kind; the answer tells whether it was. -/
def accept (kind : Kind) : ProductionOver S Bool := do
  if (← get).isAt kind then
    slide
    return true
  else
    return false

end Sliding

end JackCompiler
