import JackCompiler.Token.Basic
import JackCompiler.Token.Lexeme
import Mathlib.Data.List.Infix

/-!
# The pieces of a source

A source is made of tokens and of the gaps between them. What may stand in a gap and what makes a
token is said here with no scanner in it: a piece is judged by its characters and by what stands
around it.
-/

namespace JackCompiler

/-- What may stand before a text that goes on with a token or ends: blanks, line comments that reach
up to a line break or the end, and block comments that reach through the first `*/` behind their
opening two characters. -/
inductive IsGap : List Char → List Char → Prop
  | nil {after : List Char} : IsGap [] after
  | blank {c : Char} {gap after : List Char} :
      isBlank c = true → IsGap gap after → IsGap (c :: gap) after
  | lineComment {body gap after : List Char} :
      (∀ c ∈ body, isLineBreak c = false) → (∀ c ∈ (gap ++ after).head?, isLineBreak c = true) →
      IsGap gap after → IsGap ('/' :: '/' :: (body ++ gap)) after
  | blockComment {body gap after : List Char} :
      ¬['*', '/'] <:+: body ++ ['*'] → IsGap gap after →
      IsGap ('/' :: '*' :: (body ++ '*' :: '/' :: gap)) after

/-- A longest run of word characters, given what stands before and behind it. -/
structure IsWord (before after word : List Char) : Prop where
  ne_nil : word ≠ []
  inside : ∀ c ∈ word, isWordChar c = true
  starts : ∀ c ∈ before.getLast?, isWordChar c = false
  ends : ∀ c ∈ after.head?, isWordChar c = false

/-- The characters of a token other than the end, given what stands before and behind them. -/
inductive IsLexeme (before after : List Char) : Kind → List Char → Prop
  | text {body : List Char} :
      (∀ c ∈ body, c ≠ '"' ∧ c ≠ '\r' ∧ c ≠ '\n') →
      IsLexeme before after .text ('"' :: (body ++ ['"']))
  | number {word : List Char} :
      IsWord before after word → (∀ c ∈ word, c.isDigit = true) →
      IsLexeme before after .number word
  | keyword {word : List Char} {k : Keyword} :
      IsWord before after word → word = k.text.toList → IsLexeme before after (.keyword k) word
  | identifier {word : List Char} :
      IsWord before after word → (∀ c ∈ word.head?, c.isDigit = false) →
      (∀ k : Keyword, word ≠ k.text.toList) → IsLexeme before after .identifier word
  | symbol {s : Symbol} :
      (s = .slash → ∀ c ∈ after.head?, c ≠ '/' ∧ c ≠ '*') →
      IsLexeme before after (.symbol s) [s.char]

/-- The token of given characters that stand behind others. -/
def Token.behind (before : List Char) (kind : Kind) (text : List Char) : Token :=
  ⟨kind, .ofList text, ⟨byteCount before, byteCount text⟩⟩

/-- Tokens decompose a text, given what stands before it: a gap, the first token, and so on, up to
a last gap and the end. -/
inductive Decomposes : List Char → List Char → List Token → Prop
  | finish {before gap : List Char} :
      IsGap gap [] → Decomposes before gap [.finish (byteCount (before ++ gap))]
  | token {before gap text after : List Char} {kind : Kind} {ts : List Token} :
      IsGap gap (text ++ after) → IsLexeme (before ++ gap) after kind text →
      Decomposes (before ++ (gap ++ text)) after ts →
      Decomposes before (gap ++ (text ++ after)) (.behind (before ++ gap) kind text :: ts)

end JackCompiler
