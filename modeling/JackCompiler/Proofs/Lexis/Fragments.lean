import JackCompiler.Text.Span

/-!
# Fragments of a text

Wherever a text splits into a piece and what stands before and behind it, the span of so many bytes
cuts the piece out: both of its ends stand between characters.
-/

namespace JackCompiler

/-- A walk over the bytes of some characters has the bytes of the first one before it, and those of
the others behind that. -/
theorem byteCount_cons_eq_succ (c : Char) (cs : List Char) :
    ∃ n, byteCount (c :: cs) = n + 1 ∧ c.utf8Size ≤ n + 1 ∧ n + 1 - c.utf8Size = byteCount cs := by
  have hpos := c.utf8Size_pos
  refine ⟨c.utf8Size + byteCount cs - 1, ?_⟩
  rw [byteCount_cons]
  omega

theorem splitBytesOnto?_byteCount (before after taken : List Char) :
    splitBytesOnto? (byteCount before) taken (before ++ after) =
      some (taken.reverse ++ before, after) := by
  induction before generalizing taken with
  | nil => rw [byteCount_nil, splitBytesOnto?, List.append_nil, List.nil_append]
  | cons c before ih =>
      obtain ⟨n, hn, hle, hrest⟩ := byteCount_cons_eq_succ c before
      rw [hn, List.cons_append, splitBytesOnto?, if_pos hle, hrest, ih, List.reverse_cons,
        List.append_assoc]
      rfl

/-- A text splits behind any of its beginnings. -/
theorem splitBytes?_byteCount (before after : List Char) :
    splitBytes? (byteCount before) (before ++ after) = some (before, after) :=
  splitBytesOnto?_byteCount before after []

/-- A piece of a text is the fragment that its place names. -/
theorem Span.fragment?_of_split {text : String} (before piece after : List Char)
    (h : text.toList = before ++ (piece ++ after)) :
    (Span.mk (byteCount before) (byteCount piece)).fragment? text = some (String.ofList piece) := by
  simp only [fragment?, h, splitBytes?_byteCount, Option.bind_eq_bind, Option.bind_some]
  rfl

end JackCompiler
