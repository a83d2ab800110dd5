import JackCompiler.Proofs.Lexis.Fragments
import JackCompiler.Proofs.Syntax.Scanning
import JackCompiler.Text.Location
import Mathlib.Data.List.Induction

/-!
# Where tokens stand

Scanners stop only between characters, so every token and every complaint of a scanner has a
location. Its line is one more than the line feeds before it, and its column is one more than the
characters since the last of them.
-/

namespace JackCompiler

namespace Place

/-- A walk over the bytes of some characters is a walk over the characters. -/
theorem walk?_byteCount (before after : List Char) (p : Place) :
    walk? (byteCount before) (before ++ after) p = some (before.foldl Place.after p) := by
  induction before generalizing p with
  | nil => rw [byteCount_nil, walk?, List.foldl_nil]
  | cons c before ih =>
      obtain ⟨n, hn, hle, hrest⟩ := byteCount_cons_eq_succ c before
      rw [hn, List.cons_append, walk?, if_pos hle, hrest, ih, List.foldl_cons]

theorem line_foldl_after (before : List Char) (p : Place) :
    (before.foldl Place.after p).line = p.line + before.count '\n' := by
  induction before generalizing p with
  | nil => rfl
  | cons c before ih =>
      rw [List.foldl_cons, ih, List.count_cons, Place.after]
      by_cases hc : c = '\n'
      · rw [if_pos hc, if_pos (beq_iff_eq.mpr hc), Nat.add_right_comm, Nat.add_assoc]
      · rw [if_neg hc, if_neg (mt beq_iff_eq.mp hc)]
        rfl

theorem column_foldl_after (before : List Char) :
    (before.foldl Place.after Place.first).column =
      (before.reverse.takeWhile (· != '\n')).length + 1 := by
  induction before using List.reverseRecOn with
  | nil => rfl
  | append_singleton before c ih =>
      rw [List.foldl_append, List.foldl_cons, List.foldl_nil, List.reverse_concat, Place.after]
      by_cases hc : c = '\n'
      · rw [if_pos hc, List.takeWhile_cons_of_neg (by simp [hc])]
        rfl
      · rw [if_neg hc, List.takeWhile_cons_of_pos (by simp [hc]), List.length_cons, ← ih]

end Place

/-- Some characters of a source lead up to a location. -/
structure Location.IsAfter (l : Location) (before : List Char) : Prop where
  line : l.line = before.count '\n' + 1
  column : l.column = (before.reverse.takeWhile (· != '\n')).length + 1

/-- An offset between characters has a location. -/
theorem Location.of?_byteCount {source : String} {before after : List Char}
    (h : source.toList = before ++ after) :
    ∃ l, Location.of? source (byteCount before) = some l ∧ l.IsAfter before := by
  have hplace : Place.of? source.toList (byteCount before) =
      some (before.foldl Place.after Place.first) := by
    rw [Place.of?, h, Place.walk?_byteCount]
  refine ⟨_, congrArg (Option.map _) hplace, ?_, Place.column_foldl_after before⟩
  exact (Place.line_foldl_after before _).trans (Nat.add_comm _ _)

/-- Where a scanner stops there is a location. -/
theorem Scanner.Advances.location {source : String} {s : Scanner}
    (h : (Scanner.ofSource source).Advances s) : ∃ before l, source.toList = before ++ s.rest ∧
      byteCount before = s.offset ∧ Location.of? source s.offset = some l ∧ l.IsAfter before := by
  obtain ⟨before, hrest, hoffset⟩ := h
  obtain ⟨l, hl, hafter⟩ := Location.of?_byteCount hrest
  have hsame : byteCount before = s.offset := by rw [hoffset]; exact (Nat.zero_add _).symm
  exact ⟨before, l, hrest, hsame, hsame ▸ hl, hafter⟩

/-- A token stands in a source at a location: its text is there, after so many bytes. -/
def Token.StandsAt (t : Token) (source : String) (l : Location) : Prop :=
  ∃ before after, source.toList = before ++ t.text.toList ++ after ∧
    byteCount before = t.span.start ∧ l.IsAfter before

end JackCompiler
