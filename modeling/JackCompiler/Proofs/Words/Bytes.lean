import JackCompiler.Proofs.Lexis.Fragments
import JackCompiler.Proofs.Syntax.Scanning
import JackCompiler.Token.Cursor
import Mathlib.Data.List.Infix
import Mathlib.Data.String.Basic

/-!
# The bytes of a source

A cursor looks at the bytes of a source where they are. At a byte where a character begins it finds
that character, and between two such bytes it finds the piece that a walk over the characters finds.
-/

namespace JackCompiler

open Scanner

theorem utf8Len_eq_byteCount (cs : List Char) : String.utf8Len cs = byteCount cs := by
  induction cs with
  | nil => rfl
  | cons c cs ih => rw [String.utf8Len_cons, byteCount_cons, ih, Nat.add_comm]

theorem utf8ByteSize_ofList (cs : List Char) : (String.ofList cs).utf8ByteSize = byteCount cs := by
  rw [String.utf8ByteSize_ofList, utf8Len_eq_byteCount]

theorem utf8ByteSize_eq (source : String) : source.utf8ByteSize = byteCount source.toList := by
  rw [← utf8ByteSize_ofList, String.ofList_toList]

theorem byteCount_replicate (n : Nat) (c : Char) :
    byteCount (List.replicate n c) = n * c.utf8Size := by
  induction n with
  | zero => rw [Nat.zero_mul]; rfl
  | succ n ih => rw [List.replicate_succ, byteCount_cons, ih, Nat.succ_mul, Nat.add_comm]

theorem splitBytesOnto?_eq_some {n : Nat} {taken cs a b : List Char}
    (h : splitBytesOnto? n taken cs = some (a, b)) :
    ∃ piece, a = taken.reverse ++ piece ∧ cs = piece ++ b ∧ byteCount piece = n := by
  fun_induction splitBytesOnto? n taken cs with
  | case1 taken cs =>
      cases h
      exact ⟨[], by simp, rfl, rfl⟩
  | case2 => cases h
  | case3 n taken c cs hle ih =>
      obtain ⟨piece, rfl, rfl, hpiece⟩ := ih h
      refine ⟨c :: piece, by simp, rfl, ?_⟩
      rw [byteCount_cons, hpiece]
      omega
  | case4 => cases h

/-- A text splits after a number of bytes exactly where a beginning of it has that many. -/
theorem splitBytes?_eq_some_iff {n : Nat} {cs a b : List Char} :
    splitBytes? n cs = some (a, b) ↔ cs = a ++ b ∧ byteCount a = n := by
  constructor
  · intro h
    obtain ⟨piece, rfl, hcs, hn⟩ := splitBytesOnto?_eq_some h
    exact ⟨hcs, hn⟩
  · rintro ⟨rfl, rfl⟩
    exact splitBytes?_byteCount a b

theorem splitBytes?_eq_none_iff {n : Nat} {cs : List Char} :
    splitBytes? n cs = none ↔ ∀ a b, cs = a ++ b → byteCount a ≠ n := by
  rw [Option.eq_none_iff_forall_not_mem]
  constructor
  · exact fun h a b hcs hn => h (a, b) (splitBytes?_eq_some_iff.mpr ⟨hcs, hn⟩)
  · rintro h ⟨a, b⟩ hab
    obtain ⟨hcs, hn⟩ := splitBytes?_eq_some_iff.mp hab
    exact h a b hcs hn

/-- The piece of some characters that a span names, if both ends of the span stand between
characters. -/
def Span.piece? (s : Span) (cs : List Char) : Option String := do
  let (_, rest) ← splitBytes? s.start cs
  let (piece, _) ← splitBytes? s.size rest
  return String.ofList piece

theorem Span.fragment?_eq (s : Span) (text : String) : s.fragment? text = s.piece? text.toList := rfl

theorem isValid_iff {cs : List Char} {n : Nat} :
    String.Pos.Raw.isValid (String.ofList cs) ⟨n⟩ = true ↔ ∃ a b, cs = a ++ b ∧ byteCount a = n := by
  rw [String.Pos.Raw.isValid_eq_true_iff, String.Pos.Raw.isValid_ofList]
  constructor
  · rintro ⟨i, hi⟩
    exact ⟨cs.take i, cs.drop i, (List.take_append_drop i cs).symm,
      (utf8ByteSize_ofList _).symm.trans hi.symm⟩
  · rintro ⟨a, b, rfl, rfl⟩
    exact ⟨a.length, by rw [List.take_left, utf8ByteSize_ofList]⟩

/-- Of two beginnings of some characters the one with fewer bytes is a beginning of the other. -/
theorem prefix_of_byteCount_le {a b cs : List Char} (ha : a <+: cs) (hb : b <+: cs)
    (h : byteCount a ≤ byteCount b) : a <+: b := by
  rcases List.prefix_or_prefix_of_prefix ha hb with hab | ⟨rest, rfl⟩
  · exact hab
  · have hrest : rest = [] := by
      by_contra hne
      have := byteCount_pos hne
      rw [byteCount_append] at h
      omega
    rw [hrest, List.append_nil]

/-- A piece cut out without a walk is the piece that a walk finds. -/
theorem Span.cut?_ofList (s : Span) (cs : List Char) : s.cut? (String.ofList cs) = s.piece? cs := by
  unfold cut? piece?
  cases hstart : splitBytes? s.start cs with
  | none =>
      have hnot : String.Pos.Raw.isValid (String.ofList cs) ⟨s.start⟩ = false := by
        rw [← Bool.not_eq_true, isValid_iff]
        rintro ⟨a, b, hcs, hn⟩
        exact splitBytes?_eq_none_iff.mp hstart a b hcs hn
      rw [hnot]
      rfl
  | some p =>
      obtain ⟨before, rest⟩ := p
      obtain ⟨rfl, hbefore⟩ := splitBytes?_eq_some_iff.mp hstart
      have hvalid : String.Pos.Raw.isValid (String.ofList (before ++ rest)) ⟨s.start⟩ = true :=
        isValid_iff.mpr ⟨before, rest, rfl, hbefore⟩
      rw [hvalid, Bool.true_and, Option.bind_eq_bind, Option.bind_some]
      dsimp only
      cases hstop : splitBytes? s.size rest with
      | none =>
          have hnot : String.Pos.Raw.isValid (String.ofList (before ++ rest)) ⟨s.stop⟩ = false := by
            rw [← Bool.not_eq_true, isValid_iff]
            rintro ⟨a, b, hcs, hn⟩
            obtain ⟨piece, rfl⟩ := prefix_of_byteCount_le (List.prefix_append before rest)
              (hcs ▸ List.prefix_append a b) (by rw [hbefore, hn]; exact Nat.le_add_right _ _)
            rw [List.append_assoc] at hcs
            refine splitBytes?_eq_none_iff.mp hstop piece b (List.append_cancel_left hcs) ?_
            rw [byteCount_append, Span.stop] at hn
            omega
          rw [hnot]
          rfl
      | some p =>
          obtain ⟨piece, after⟩ := p
          obtain ⟨rfl, hpiece⟩ := splitBytes?_eq_some_iff.mp hstop
          have hvalid : String.Pos.Raw.isValid (String.ofList (before ++ (piece ++ after))) ⟨s.stop⟩ =
              true :=
            isValid_iff.mpr ⟨before ++ piece, after, by simp, by
              rw [byteCount_append, hbefore, hpiece, Span.stop]⟩
          have hextract := String.extract_of_valid before piece after
          rw [List.append_assoc, utf8Len_eq_byteCount, utf8Len_eq_byteCount, hbefore,
            hpiece] at hextract
          rw [hvalid, if_pos rfl, Option.bind_some, Span.stop, hextract]
          rfl

/-! ## Single characters -/

namespace Scanner.Advances

variable {source : String} {offset : Nat} {c : Char} {cs : List Char}

theorem exists_ofList (h : (ofSource source).Advances ⟨offset, cs⟩) :
    ∃ pre, source = String.ofList (pre ++ cs) ∧ offset = String.utf8Len pre := by
  obtain ⟨pre, hsource, hoffset⟩ := h
  refine ⟨pre, ?_, ?_⟩
  · rw [← show source.toList = pre ++ cs from hsource, String.ofList_toList]
  · rw [utf8Len_eq_byteCount]
    exact hoffset.trans (Nat.zero_add _)

theorem lt_utf8ByteSize_iff (h : (ofSource source).Advances ⟨offset, cs⟩) :
    offset < source.utf8ByteSize ↔ cs ≠ [] := by
  have hsize : offset + byteCount cs = source.utf8ByteSize := by
    rw [utf8ByteSize_eq, ← Nat.zero_add (byteCount source.toList)]
    exact h.size_eq
  rw [← hsize, Nat.lt_add_right_iff_pos]
  refine ⟨?_, byteCount_pos⟩
  rintro hpos rfl
  exact absurd hpos (Nat.lt_irrefl 0)

theorem get_eq (h : (ofSource source).Advances ⟨offset, c :: cs⟩) :
    String.Pos.Raw.get source ⟨offset⟩ = c := by
  obtain ⟨pre, rfl, rfl⟩ := h.exists_ofList
  rw [String.get_of_valid]
  rfl

theorem charAt?_eq (h : (ofSource source).Advances ⟨offset, cs⟩) :
    charAt? source offset = cs.head? := by
  unfold charAt?
  cases cs with
  | nil => rw [if_neg (by simp [h.lt_utf8ByteSize_iff])]; rfl
  | cons c cs => rw [if_pos (by simp [h.lt_utf8ByteSize_iff]), h.get_eq]; rfl

theorem tail (h : (ofSource source).Advances ⟨offset, c :: cs⟩) :
    (ofSource source).Advances ⟨offset + c.utf8Size, cs⟩ :=
  h.trans .char

end Scanner.Advances

end JackCompiler
