/-!
# Spans of a text

A span names a piece of a text by the byte at which it starts and by its size in bytes, both counted
in UTF-8. A span is cut out of a text only where both of its ends stand between characters.

An offset is kept in a word of thirty-two bits. What is said of the numbers of a span is meant of
texts that such words reach from end to end; of a byte farther back the word is all that is kept.

## Implementation notes

All walks over a text take it as its list of characters and carry the byte count along, so that an
end inside a character shows as a character that is wider than the bytes left to walk.
-/

namespace JackCompiler

/-- The number of bytes that a list of characters takes. -/
def byteCount (cs : List Char) : Nat :=
  cs.foldl (fun n c => n + c.utf8Size) 0

theorem foldl_utf8Size (cs : List Char) (n : Nat) :
    cs.foldl (fun n c => n + c.utf8Size) n = n + byteCount cs := by
  induction cs generalizing n with
  | nil => rfl
  | cons c cs ih =>
      rw [byteCount, List.foldl_cons, List.foldl_cons, ih, ih (0 + c.utf8Size), Nat.zero_add,
        Nat.add_assoc]

@[simp] theorem byteCount_nil : byteCount [] = 0 := rfl

@[simp] theorem byteCount_cons (c : Char) (cs : List Char) :
    byteCount (c :: cs) = c.utf8Size + byteCount cs := by
  rw [byteCount, List.foldl_cons, foldl_utf8Size, Nat.zero_add]

@[simp] theorem byteCount_append (a b : List Char) :
    byteCount (a ++ b) = byteCount a + byteCount b := by
  induction a with
  | nil => simp
  | cons c a ih => simp [ih, Nat.add_assoc]

/-- A piece of a text: the byte at which it starts and its size in bytes. -/
structure Span where
  start : Nat
  size : Nat
deriving DecidableEq, Repr

/-- The greatest offset: offsets are words of thirty-two bits. -/
def maxOffset : Nat := 4294967295

/-- What a word keeps of a number. -/
def wordOf (n : Nat) : Nat :=
  n % (maxOffset + 1)

theorem wordOf_of_le {n : Nat} (h : n ≤ maxOffset) : wordOf n = n :=
  Nat.mod_eq_of_lt (Nat.lt_succ_of_le h)

/-- The span from one byte to another in words. There is none where the words run backwards. -/
def Span.between? (start stop : Nat) : Option Span :=
  if wordOf start ≤ wordOf stop then some ⟨wordOf start, wordOf stop - wordOf start⟩ else none

/-- The byte just past a span. -/
def Span.stop (s : Span) : Nat :=
  s.start + s.size

/-- The byte just past a span, if it is an offset. -/
def Span.stop? (s : Span) : Option Nat :=
  if s.stop ≤ maxOffset then some s.stop else none

theorem Span.stop?_eq_some_iff {s : Span} {n : Nat} :
    s.stop? = some n ↔ s.stop ≤ maxOffset ∧ s.stop = n := by
  simp [Span.stop?]

/-- Split off the first bytes of a text, given the characters already split off in reverse order;
this fails where the cut is inside a character or past the end. -/
def splitBytesOnto? : Nat → List Char → List Char → Option (List Char × List Char)
  | 0, taken, cs => some (taken.reverse, cs)
  | _ + 1, _, [] => none
  | n + 1, taken, c :: cs =>
      if c.utf8Size ≤ n + 1 then splitBytesOnto? (n + 1 - c.utf8Size) (c :: taken) cs else none

/-- Split a text after a number of bytes, where a character ends there. -/
def splitBytes? (n : Nat) (cs : List Char) : Option (List Char × List Char) :=
  splitBytesOnto? n [] cs

/-- The piece of a text that a span names, if both ends of the span stand between characters. -/
def Span.fragment? (s : Span) (text : String) : Option String := do
  let (_, rest) ← splitBytes? s.start text.toList
  let (piece, _) ← splitBytes? s.size rest
  return String.ofList piece

/-- The piece of a text that a span names, cut out without a walk over the text. -/
def Span.cut? (s : Span) (text : String) : Option String :=
  if String.Pos.Raw.isValid text ⟨s.start⟩ && String.Pos.Raw.isValid text ⟨s.stop⟩ then
    some (String.Pos.Raw.extract text ⟨s.start⟩ ⟨s.stop⟩)
  else none

end JackCompiler
