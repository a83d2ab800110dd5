/-!
# Blank characters

The characters that separate lexemes: the ones with the Unicode property `White_Space`. Two of
them, carriage return and line feed, end a line comment and cut a string constant short.
-/

namespace JackCompiler

/-- A character is blank when it has the Unicode property `White_Space`. -/
def isBlank (c : Char) : Bool :=
  let n := c.toNat
  (0x09 ≤ n && n ≤ 0x0d) || n == 0x20 || n == 0x85 || n == 0xa0 || n == 0x1680 ||
    (0x2000 ≤ n && n ≤ 0x200a) || n == 0x2028 || n == 0x2029 || n == 0x202f || n == 0x205f ||
    n == 0x3000

/-- A line break is a carriage return or a line feed, each of them on its own. -/
def isLineBreak (c : Char) : Bool :=
  c == '\r' || c == '\n'

/-- A line break is blank, so it separates what stands before it from what follows. -/
theorem isBlank_of_isLineBreak {c : Char} (h : isLineBreak c = true) : isBlank c = true := by
  simp only [isLineBreak, Bool.or_eq_true, beq_iff_eq] at h
  rcases h with rfl | rfl <;> decide

end JackCompiler
