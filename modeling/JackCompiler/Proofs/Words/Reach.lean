import JackCompiler.Proofs.Safety.Calls
import JackCompiler.Proofs.Words.Walks

/-!
# Sources that words reach to the end of

Where words reach to the end of a source, the words of a span are its numbers, and the piece at a span
is the text that was passed. So a walker answers what its scanner answers.
-/

namespace JackCompiler

open Scanner

/-! ## Spans in reach -/

theorem Span.between?_of_le {start size : Nat} (h : start + size ≤ maxOffset) :
    Span.between? start (start + size) = some ⟨start, size⟩ := by
  have hstart : start ≤ maxOffset := Nat.le_trans (Nat.le_add_right _ _) h
  rw [between?, wordOf_of_le h, wordOf_of_le hstart, if_pos (Nat.le_add_right _ _),
    Nat.add_sub_cancel_left]

theorem Scanner.moved_append (offset : Nat) (passed after : List Char) :
    moved ⟨offset, passed ++ after⟩ (byteCount passed) = ⟨offset + byteCount passed, after⟩ := by
  rw [moved, splitBytes?_byteCount]
  rfl

theorem Scanner.Advances.piece? {source passed after : List Char} {offset : Nat}
    (h : Advances ⟨0, source⟩ ⟨offset, passed ++ after⟩) :
    (Span.mk offset (byteCount passed)).piece? source = some (String.ofList passed) := by
  obtain ⟨pre, hsource, hoffset⟩ := h
  obtain rfl : source = pre ++ (passed ++ after) := hsource
  obtain rfl : offset = byteCount pre := hoffset.trans (Nat.zero_add _)
  rw [← Span.fragment?_of_split pre passed after (String.toList_ofList ..), Span.fragment?_eq,
    String.toList_ofList]

/-- Nothing is found at any place between two characters. -/
theorem Scanner.Advances.piece?_nil {source : List Char} {s : Scanner} (h : Advances ⟨0, source⟩ s) :
    (Span.mk s.offset 0).piece? source = some "" := by
  have hpiece : (Span.mk s.offset (byteCount [])).piece? source = some (String.ofList []) :=
    Advances.piece? h
  exact hpiece

theorem Scanner.moved_zero (s : Scanner) : s.moved 0 = s :=
  Scanner.moved_append s.offset [] s.rest

/-! ## Answers in reach -/

/-- What reading gives, from the shape of the token, the characters passed and those behind them. -/
def Shape.reading (passed after : List Char) : Shape → Reading
  | word =>
      match wordKind passed with
      | .ok kind => .token kind passed after
      | .error cause => .refusal cause passed.dropLast (passed.getLast?.toList ++ after)
  | text => .token .text passed after
  | symbol s => .token (.symbol s) passed after
  | finish => .token .finish passed after
  | refusal cause _ => .refusal cause passed after

theorem Shaped.readLexeme_eq {offset : Nat} {cs passed after : List Char} {shape : Shape}
    (h : Shaped offset cs shape passed after) : readLexeme cs = shape.reading passed after := by
  cases h with
  | finish => rfl
  | text hrest => rw [readLexeme, if_pos rfl, readText, hrest]; rfl
  | openText hrest =>
      rw [readLexeme, if_pos rfl, readText]
      split
      · next after heq => exact absurd heq (hrest after)
      · rfl
  | word hquote hword => rw [readLexeme, if_neg hquote, if_pos hword]; rfl
  | symbol hquote hword hsymbol | unknown hquote hword hsymbol =>
      rw [readLexeme, if_neg hquote, if_neg (by simp [hword]), hsymbol]
      rfl

/-- What stands at a scanner that reads a lexeme, and where it is left. -/
def Scanner.placed (s : Scanner) : Reading → Except Complaint Token × Scanner
  | .token kind text rest =>
      (.ok ⟨kind, String.ofList text, ⟨s.offset, byteCount text⟩⟩,
        ⟨s.offset + byteCount text, rest⟩)
  | .refusal cause passed rest =>
      (.error ⟨.lexical cause, s.offset⟩, ⟨s.offset + byteCount passed, rest⟩)

section

variable {w : Walker} {s : Scanner}

/-- In reach a shape is answered as its lexeme is read. -/
theorem Shaped.answer_eq {shape : Shape} {passed after : List Char}
    (h : Shaped s.offset s.rest shape passed after) (hs : Advances ⟨0, w.source⟩ s)
    (hsize : byteCount w.source ≤ maxOffset) :
    w.answer s s.offset shape passed =
      ((s.placed (shape.reading passed after)).1,
        { w with scanner := (s.placed (shape.reading passed after)).2 }) := by
  obtain ⟨offset, cs⟩ := s
  obtain rfl : cs = passed ++ after := h.append_eq
  have hbytes := hs.size_eq
  dsimp only at hbytes h
  rw [Nat.zero_add, byteCount_append] at hbytes
  have hstop : offset + byteCount passed ≤ maxOffset := by omega
  have hbetween := Span.between?_of_le hstop
  have hpiece := hs.piece?
  have hmoved := Scanner.moved_append offset passed after
  cases hshape : shape with
  | symbol | finish =>
      simp [Walker.answer, Shape.answer?, hbetween, hpiece, hmoved, Shape.reading, Scanner.placed]
  | word =>
      subst hshape
      cases hkind : wordKind passed with
      | ok kind =>
          simp [Walker.answer, Shape.answer?, hbetween, hpiece, hmoved, hkind, Shape.reading,
            Scanner.placed]
      | error cause =>
          -- The next call begins at the last character of the word, which takes one byte.
          obtain ⟨init, d, rfl, hd⟩ := h.exists_last
          have hback : offset + byteCount (init ++ [d]) - 1 - offset = byteCount init := by
            rw [byteCount_append, byteCount_cons, hd, byteCount_nil]
            omega
          have hmoved := Scanner.moved_append offset init (d :: after)
          have hrest : init ++ [d] ++ after = init ++ d :: after := by simp
          simp only [Walker.answer, Shape.answer?, hbetween, hpiece, hkind, Shape.reading,
            Scanner.placed, Option.bind_eq_bind, Option.bind_some, String.toList_ofList,
            Option.pure_def, hback, hrest, hmoved, List.dropLast_concat, List.getLast?_concat]
          rfl
  | text =>
      subst hshape
      obtain ⟨htwo, contents, hcontents⟩ : 2 ≤ byteCount passed ∧
          ∃ contents,
            (Span.mk (offset + 1) (byteCount passed - 2)).piece? w.source = some contents := by
        obtain ⟨body, rfl⟩ := h.exists_body
        have hquotes : byteCount ('"' :: (body ++ ['"'])) = byteCount body + 2 := by
          rw [byteCount_cons, byteCount_append, Nat.add_comm]
          rfl
        have hinside : Advances ⟨0, w.source⟩ ⟨offset + 1, body ++ '"' :: after⟩ :=
          hs.trans ⟨['"'], by simp, rfl⟩
        rw [hquotes]
        exact ⟨Nat.le_add_left 2 _, _, hinside.piece?⟩
      simp [Walker.answer, Shape.answer?, hbetween, hpiece, hmoved, hcontents, htwo, Shape.reading,
        Scanner.placed]
  | refusal cause reach =>
      subst hshape
      obtain ⟨k, rfl⟩ := Nat.exists_eq_add_of_le h.reach_le.1
      have hreach := h.reach_le.2
      rw [byteCount_append] at hreach
      have hk : offset + k ≤ maxOffset := by omega
      have hbetween := Span.between?_of_le hk
      have hplace := hs.piece?_nil
      dsimp only at hplace
      simp [Walker.answer, Shape.answer?, hbetween, hplace, hmoved, Shape.reading, Scanner.placed]

end

/-- A walker is where a scanner is in a source, and whole. -/
structure InReach (source : List Char) (w : Walker) (s : Scanner) : Prop where
  walker : w = ⟨source, s, false⟩
  reached : Advances ⟨0, source⟩ s

theorem Scanner.lexeme_eq (s : Scanner) : s.lexeme = s.placed (readLexeme s.rest) := rfl

/-- In reach a walker answers what its scanner answers. -/
theorem Walker.next_eq {source : List Char} (hsize : byteCount source ≤ maxOffset) {s : Scanner}
    (hs : Advances ⟨0, source⟩ s) :
    Walker.next ⟨source, s, false⟩ = (s.next.1, ⟨source, s.next.2, false⟩) := by
  unfold Walker.next Scanner.next
  have hgap := skipGap_advances .between s.offset s.rest
  dsimp only
  rcases hskip : skipGap .between s.offset s.rest with ⟨e | _, t⟩ <;> rw [hskip] at hgap <;>
    dsimp only
  · -- An unterminated comment begins before the end, where the walk stops.
    obtain ⟨hcause, hstart | ⟨u, hu, hoffset, -⟩⟩ := skipGap_error hskip
    · cases hstart
    · have hrest := skipGap_error_rest hskip
      have hstart := (hs.trans hu).size_eq
      have hend := (hs.trans hgap).size_eq
      dsimp only at hstart hend
      rw [hrest, byteCount_nil] at hend
      obtain ⟨cause, offset⟩ := e
      obtain rfl : u.offset = offset := hoffset
      obtain rfl : cause = .lexical .unterminatedComment := hcause
      have hstop : t.offset = u.offset + byteCount u.rest := by omega
      have hle : u.offset + byteCount u.rest ≤ maxOffset := by omega
      have hplace := Advances.piece?_nil (hs.trans hu)
      have hbetween := Span.between?_of_le hle
      simp [Walker.answer, Shape.answer?, hstop, hbetween, hplace, Scanner.moved_zero]
  · obtain ⟨after, hshape⟩ := t.shape_shaped
    rw [hshape.answer_eq (hs.trans hgap) hsize, ← hshape.readLexeme_eq, ← t.lexeme_eq]

theorem inReach_answersAlike {source : List Char} (hsize : byteCount source ≤ maxOffset) :
    TokenFeed.AnswersAlike (InReach source) where
  offset := by
    rintro w s ⟨rfl, -⟩
    rfl
  answer := by
    rintro w s ⟨rfl, hs⟩
    exact (congrArg Prod.fst (Walker.next_eq hsize hs)).symm
  next := by
    rintro w s ⟨rfl, hs⟩
    exact ⟨congrArg Prod.snd (Walker.next_eq hsize hs), hs.trans s.next_advances⟩

end JackCompiler
