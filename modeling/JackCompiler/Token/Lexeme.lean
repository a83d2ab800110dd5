import JackCompiler.Complaint
import JackCompiler.Text.Blank
import JackCompiler.Token.Basic

/-!
# Reading one lexeme

A lexeme is the longest piece at the start of a text that forms a token. Reading one looks at
characters only, so the same piece is read in the same way wherever it stands in a source.

A refused piece says how far the reader passed, for the next attempt starts there: a string constant
is given up at the line break that cuts it, a malformed word at its last character, and an unknown
character is not passed at all.
-/

namespace JackCompiler

/-- The outcome of reading one lexeme, with the text that remains. -/
inductive Reading where
  | token (kind : Kind) (text rest : List Char)
  | refusal (cause : LexicalCause) (passed rest : List Char)
deriving DecidableEq, Repr

/-- Words consist of ASCII letters, digits and underscores. -/
def isWordChar (c : Char) : Bool :=
  c.isAlphanum || c == '_'

/-- A string constant holds any character but its quote and line breaks. -/
def isTextChar (c : Char) : Bool :=
  c != '"' && !isLineBreak c

/-- What a word is to the grammar: a number if it has digits only, else a reserved word or a name. A
name does not begin with a digit. -/
def wordKind (word : List Char) : Except LexicalCause Kind :=
  if word.all Char.isDigit then .ok .number
  else if word.head?.any Char.isDigit then .error (.malformedName (String.ofList word))
  else match Keyword.ofText? (String.ofList word) with
    | some k => .ok (.keyword k)
    | none => .ok .identifier

/-- Read a word. -/
def readWord (cs : List Char) : Reading :=
  let word := cs.takeWhile isWordChar
  let rest := cs.dropWhile isWordChar
  match wordKind word with
  | .ok kind => .token kind word rest
  | .error cause => .refusal cause word.dropLast (word.getLast?.toList ++ rest)

/-- Read a string constant, given the characters after its opening quote. -/
def readText (cs : List Char) : Reading :=
  let body := cs.takeWhile isTextChar
  match cs.dropWhile isTextChar with
  | '"' :: rest => .token .text ('"' :: (body ++ ['"'])) rest
  | rest => .refusal .unterminatedText ('"' :: body) rest

/-- Read the lexeme at the start of a text. -/
def readLexeme : List Char → Reading
  | [] => .token .finish [] []
  | c :: cs =>
      if c = '"' then readText cs
      else if isWordChar c then readWord (c :: cs)
      else match Symbol.ofChar? c with
        | some s => .token (.symbol s) [c] cs
        | none => .refusal (.unknownCharacter c) [] (c :: cs)

theorem wordKind_eq_error_iff {word : List Char} {cause : LexicalCause} :
    wordKind word = .error cause ↔ word.all Char.isDigit = false ∧
      word.head?.any Char.isDigit = true ∧ .malformedName (String.ofList word) = cause := by
  unfold wordKind
  cases word.all Char.isDigit <;> cases word.head?.any Char.isDigit <;>
    cases Keyword.ofText? (String.ofList word) <;> simp

/-- A word is neither a string constant nor the end. -/
theorem wordKind_ok {word : List Char} {kind : Kind} (h : wordKind word = .ok kind) :
    kind ≠ .text ∧ kind ≠ .finish := by
  unfold wordKind at h
  split at h
  · cases h
    exact ⟨nofun, nofun⟩
  · split at h
    · cases h
    · split at h <;> cases h <;> exact ⟨nofun, nofun⟩

namespace Reading

/-- The characters that a reading passed. -/
def passed : Reading → List Char
  | token _ text _ => text
  | refusal _ passed _ => passed

/-- The characters that a reading left. -/
def rest : Reading → List Char
  | token _ _ rest => rest
  | refusal _ _ rest => rest

end Reading

theorem dropLast_append_toList_getLast? {α : Type} (l : List α) :
    l.dropLast ++ l.getLast?.toList = l := by
  cases l with
  | nil => rfl
  | cons a l =>
      rw [List.getLast?_eq_some_getLast (List.cons_ne_nil a l), Option.toList_some,
        List.dropLast_concat_getLast]

theorem readWord_passed_append_rest (cs : List Char) :
    (readWord cs).passed ++ (readWord cs).rest = cs := by
  unfold readWord
  dsimp only
  split
  · exact List.takeWhile_append_dropWhile
  · simp only [Reading.passed, Reading.rest]
    rw [← List.append_assoc, dropLast_append_toList_getLast?, List.takeWhile_append_dropWhile]

theorem readText_passed_append_rest (cs : List Char) :
    (readText cs).passed ++ (readText cs).rest = '"' :: cs := by
  unfold readText
  dsimp only
  split
  · next rest h =>
    have := List.takeWhile_append_dropWhile (p := isTextChar) (l := cs)
    rw [h] at this
    simpa [Reading.passed, Reading.rest] using this
  · simp [Reading.passed, Reading.rest, List.takeWhile_append_dropWhile]

/-- Reading loses no character: what it passed and what it left make up the text. -/
theorem readLexeme_passed_append_rest (cs : List Char) :
    (readLexeme cs).passed ++ (readLexeme cs).rest = cs := by
  cases cs with
  | nil => rfl
  | cons c cs =>
      simp only [readLexeme]
      split
      · next h => rw [readText_passed_append_rest, h]
      · split
        · exact readWord_passed_append_rest _
        · split <;> rfl

end JackCompiler
