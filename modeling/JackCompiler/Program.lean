import JackCompiler.Compiler

/-!
# The program

The compiler as it runs: with offsets in words, over a cursor. Where words reach to the end of a
source, it does what the compiler does that is described with offsets of any size. In a longer source
it takes the text of a token from the piece that the words name.
-/

namespace JackCompiler

/-- The failure that a complaint makes, given the cursor that gave the tokens. -/
def Cursor.failure (c : Cursor) (e : Complaint) : Failure :=
  if c.torn then .torn else e.failure c.source

namespace Program

/-- The tokens of a source through its end or up to the first complaint, unless the text of one
cannot be had. -/
def tokens? (source : String) : Option (List Token × Option Complaint) :=
  let (tokens, c) := (Cursor.ofSource source).tokens
  if c.torn then none else some tokens

/-- Read the class of a source. -/
def parse (source : String) : Report ClassTree :=
  match classTree (Window.ofCursor source) with
  | .ok tree w => ⟨.ok tree, w.records⟩
  | .error e w => ⟨.error (w.scanner.failure e), w.records⟩

/-- Compile a source to the text of its listing. -/
def compile (options : Options) (source : String) : Report String :=
  (parse source).compiled options source

/-- Compile a source into a sink. -/
def compileInto (options : Options) (source : String) (sink : Sink) : Report Unit × Sink :=
  (parse source).compiledInto options source sink

/-- Write the token table of a source. -/
def tokenTable (source : String) (sink : TextSink) : Report Unit × TextSink :=
  let (tokens, c) := (Cursor.ofSource source).tokens
  (writeTokens tokens sink).report c.failure

end Program

end JackCompiler
