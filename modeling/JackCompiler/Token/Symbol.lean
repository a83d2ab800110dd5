/-!
# Symbols

The single characters that are tokens by themselves, and the entities that stand for the ones that
collide with markup in a token table.
-/

namespace JackCompiler

/-- A character that is a token by itself. -/
inductive Symbol where
  | leftBrace | rightBrace | leftParen | rightParen | leftBracket | rightBracket
  | dot | comma | semicolon
  | plus | minus | star | slash | ampersand | pipe | less | greater | equals | tilde
deriving DecidableEq, Repr

namespace Symbol

/-- The character of a symbol. -/
def char : Symbol → Char
  | leftBrace => '{'
  | rightBrace => '}'
  | leftParen => '('
  | rightParen => ')'
  | leftBracket => '['
  | rightBracket => ']'
  | dot => '.'
  | comma => ','
  | semicolon => ';'
  | plus => '+'
  | minus => '-'
  | star => '*'
  | slash => '/'
  | ampersand => '&'
  | pipe => '|'
  | less => '<'
  | greater => '>'
  | equals => '='
  | tilde => '~'

/-- The name that log records give a symbol. -/
def name : Symbol → String
  | leftBrace => "LeftBrace"
  | rightBrace => "RightBrace"
  | leftParen => "LeftParen"
  | rightParen => "RightParen"
  | leftBracket => "LeftBracket"
  | rightBracket => "RightBracket"
  | dot => "Dot"
  | comma => "Comma"
  | semicolon => "Semicolon"
  | plus => "Plus"
  | minus => "Minus"
  | star => "Star"
  | slash => "Slash"
  | ampersand => "Amp"
  | pipe => "Pipe"
  | less => "Less"
  | greater => "Greater"
  | equals => "Eq"
  | tilde => "Tilde"

/-- All symbols. -/
def all : List Symbol :=
  [leftBrace, rightBrace, leftParen, rightParen, leftBracket, rightBracket, dot, comma, semicolon,
    plus, minus, star, slash, ampersand, pipe, less, greater, equals, tilde]

theorem mem_all (s : Symbol) : s ∈ all := by
  cases s <;> decide

/-- The symbol with a given character. -/
def ofChar? (c : Char) : Option Symbol :=
  all.find? fun s => s.char == c

@[simp] theorem ofChar?_char (s : Symbol) : ofChar? s.char = some s := by
  cases s <;> decide

theorem ofChar?_eq_some_iff {c : Char} {s : Symbol} : ofChar? c = some s ↔ s.char = c := by
  refine ⟨fun h => ?_, fun h => h ▸ ofChar?_char s⟩
  simpa using List.find?_some h

end Symbol

/-- The entity that stands for a character of markup. -/
def markupEntity? (c : Char) : Option String :=
  if c = '<' then some "&lt;"
  else if c = '>' then some "&gt;"
  else if c = '"' then some "&quot;"
  else if c = '&' then some "&amp;"
  else none

/-- The character of markup that an entity stands for. -/
def markupCharacter? (entity : String) : Option Char :=
  ['<', '>', '"', '&'].find? fun c => markupEntity? c == some entity

/-- Reading an entity gives back the character that it stands for. -/
theorem markupCharacter?_eq_some_iff {entity : String} {c : Char} :
    markupCharacter? entity = some c ↔ markupEntity? c = some entity := by
  constructor
  · intro h
    simpa using List.find?_some h
  · intro h
    unfold markupEntity? at h
    split at h
    · cases h; subst c; decide
    · split at h
      · cases h; subst c; decide
      · split at h
        · cases h; subst c; decide
        · split at h
          · cases h; subst c; decide
          · cases h

end JackCompiler
