import JackCompiler.Text.Printable

/-!
# Quoted characters and texts

Messages and log records show a character between single quotes and a text between double quotes.
The quoted form stays on one line and shows nothing that does not print: the usual control
characters, the backslash and the quote in use are written with a backslash, and combining and
unprintable characters by their code point.

## Implementation notes

The kind of quote is a parameter, since it is the only difference between the two forms: a double
quote stands as it is between single quotes, and the other way round.
-/

namespace JackCompiler

/-- The escape of a code point is its lower-case hexadecimal number in braces. -/
def codePointEscape (c : Char) : List Char :=
  '\\' :: 'u' :: '\x7b' :: Nat.toDigits 16 c.toNat ++ ['\x7d']

/-- A character as it stands between two given quotes. -/
def quotedChar (quote c : Char) : List Char :=
  if c = '\x00' then ['\\', '0']
  else if c = '\t' then ['\\', 't']
  else if c = '\r' then ['\\', 'r']
  else if c = '\n' then ['\\', 'n']
  else if c = '\\' || c = quote then ['\\', c]
  else if isCombining c || !isPrinting c then codePointEscape c
  else [c]

/-- A text between two given quotes. -/
def quoted (quote : Char) (text : List Char) : String :=
  String.ofList (quote :: text.flatMap (quotedChar quote) ++ [quote])

/-- A character between single quotes. -/
def quoteCharacter (c : Char) : String :=
  quoted '\'' [c]

/-- A text between double quotes. -/
def quoteText (text : String) : String :=
  quoted '"' text.toList

end JackCompiler
