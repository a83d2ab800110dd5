import JackCompiler.Proofs.Lexis.Lexemes
import JackCompiler.Proofs.Words.Bytes
import JackCompiler.Proofs.Words.Feeds

/-!
# A cursor as a walk over characters

A walker is a cursor taken apart: it has the characters of its source, and a scanner for those still
to come. It answers what the cursor answers. Of the characters behind it it needs only the pieces
that spans name.
-/

namespace JackCompiler

open Scanner

/-! ## Walks -/

/-- Where a walk over blanks and comments fails, if it does. -/
def gapFault? : Except Complaint Unit → Option Nat
  | .ok () => none
  | .error e => some e.offset

section

variable {source : String} {offset : Nat} {c : Char} {cs : List Char}

theorem skipFrom_nil (h : (ofSource source).Advances ⟨offset, []⟩) (g : Gap) :
    skipFrom source g offset =
      (match g with | .blockComment start => some start | _ => none, offset) := by
  rw [skipFrom.eq_def, dif_neg (by simp [h.lt_utf8ByteSize_iff])]
  cases g <;> rfl

theorem skipFrom_between (h : (ofSource source).Advances ⟨offset, c :: cs⟩) :
    skipFrom source .between offset =
      if c = '/' ∧ cs.head? = some '/' then skipFrom source .lineComment (offset + 2)
      else if c = '/' ∧ cs.head? = some '*' then skipFrom source (.blockComment offset) (offset + 2)
      else if isBlank c then skipFrom source .between (offset + c.utf8Size)
      else (none, offset) := by
  rw [skipFrom.eq_def, dif_pos (by simp [h.lt_utf8ByteSize_iff])]
  dsimp only
  rw [h.get_eq]
  by_cases hc : c = '/'
  · subst hc
    rw [show charAt? source (offset + 1) = cs.head? from h.tail.charAt?_eq]
    simp
  · simp [hc]

theorem skipFrom_lineComment (h : (ofSource source).Advances ⟨offset, c :: cs⟩) :
    skipFrom source .lineComment offset =
      if isLineBreak c then skipFrom source .between (offset + c.utf8Size)
      else skipFrom source .lineComment (offset + c.utf8Size) := by
  rw [skipFrom.eq_def, dif_pos (by simp [h.lt_utf8ByteSize_iff])]
  dsimp only
  rw [h.get_eq]

theorem skipFrom_blockComment (h : (ofSource source).Advances ⟨offset, c :: cs⟩) (start : Nat) :
    skipFrom source (.blockComment start) offset =
      if c = '*' ∧ cs.head? = some '/' then skipFrom source .between (offset + 2)
      else skipFrom source (.blockComment start) (offset + c.utf8Size) := by
  rw [skipFrom.eq_def, dif_pos (by simp [h.lt_utf8ByteSize_iff])]
  dsimp only
  rw [h.get_eq]
  by_cases hc : c = '*'
  · subst hc
    rw [show charAt? source (offset + 1) = cs.head? from h.tail.charAt?_eq]
    simp
  · simp [hc]

end

/-- Skipping from a byte ends where skipping the characters from there on ends. -/
theorem skipFrom_eq {source : String} {g : Gap} {offset : Nat} {cs : List Char}
    (h : (ofSource source).Advances ⟨offset, cs⟩) :
    skipFrom source g offset =
      (gapFault? (skipGap g offset cs).1, (skipGap g offset cs).2.offset) := by
  have hne {d : Char} {cs : List Char} (hnot : ∀ rest, cs = d :: rest → False) :
      cs.head? ≠ some d := by
    cases cs with
    | nil => simp
    | cons e cs =>
        rintro heq
        obtain rfl := Option.some_inj.mp heq
        exact hnot cs rfl
  fun_induction skipGap g offset cs with
  | case1 offset cs ih =>
      rw [skipFrom_between h, if_pos ⟨rfl, rfl⟩, ih h.tail.tail]
  | case2 offset cs ih =>
      rw [skipFrom_between h, if_neg (by simp), if_pos ⟨rfl, rfl⟩, ih h.tail.tail]
  | case3 offset c cs hline hblock hblank ih =>
      rw [skipFrom_between h, if_neg fun hc => hne (fun rest => hline rest hc.1) hc.2,
        if_neg fun hc => hne (fun rest => hblock rest hc.1) hc.2, if_pos hblank, ih h.tail]
  | case4 offset c cs hline hblock hblank =>
      rw [skipFrom_between h, if_neg fun hc => hne (fun rest => hline rest hc.1) hc.2,
        if_neg fun hc => hne (fun rest => hblock rest hc.1) hc.2, if_neg hblank]
      rfl
  | case5 offset => exact skipFrom_nil h _
  | case6 offset c cs hbreak ih => rw [skipFrom_lineComment h, if_pos hbreak, ih h.tail]
  | case7 offset c cs hbreak ih => rw [skipFrom_lineComment h, if_neg hbreak, ih h.tail]
  | case8 offset => exact skipFrom_nil h _
  | case9 start offset cs ih =>
      rw [skipFrom_blockComment h, if_pos ⟨rfl, rfl⟩, ih h.tail.tail]
  | case10 start offset c cs hopen ih =>
      rw [skipFrom_blockComment h, if_neg fun hc => hne (fun rest => hopen rest hc.1) hc.2,
        ih h.tail]
  | case11 start offset => exact skipFrom_nil h _

/-- A run of characters ends where taking them while they have the property ends. -/
theorem runEnd_eq {source : String} {p : Char → Bool} {offset : Nat} {cs : List Char}
    (h : (ofSource source).Advances ⟨offset, cs⟩) :
    runEnd p source offset = offset + byteCount (cs.takeWhile p) := by
  induction cs generalizing offset with
  | nil =>
      rw [runEnd, dif_neg (by simp [h.lt_utf8ByteSize_iff])]
      rfl
  | cons c cs ih =>
      rw [runEnd, dif_pos (by simp [h.lt_utf8ByteSize_iff])]
      dsimp only
      rw [h.get_eq]
      cases hc : p c with
      | false => rw [if_neg (by simp), List.takeWhile_cons_of_neg (by simp [hc])]; rfl
      | true =>
          rw [if_pos rfl, ih h.tail, List.takeWhile_cons_of_pos hc, byteCount_cons, Nat.add_assoc]

/-- The shape of the token where a scanner stands, with the characters passed. -/
def Scanner.shape (s : Scanner) : Shape × List Char :=
  match s.rest with
  | [] => (.finish, [])
  | c :: cs =>
      if c = '"' then
        let body := '"' :: cs.takeWhile isTextChar
        let stop := s.offset + byteCount body
        match (cs.dropWhile isTextChar).head? with
        | some d =>
            if d = '"' then (.text, body ++ ['"'])
            else (.refusal .unterminatedText (stop + 1), body)
        | none => (.refusal .unterminatedText stop, body)
      else if isWordChar c then (.word, (c :: cs).takeWhile isWordChar)
      else match Symbol.ofChar? c with
        | some symbol => (.symbol symbol, [c])
        | none => (.refusal (.unknownCharacter c) s.offset, [])

theorem shapeAt_eq {source : String} {s : Scanner} (h : (ofSource source).Advances s) :
    shapeAt source s.offset = (s.shape.1, s.offset + byteCount s.shape.2) := by
  obtain ⟨offset, cs⟩ := s
  unfold shapeAt shape
  rw [h.charAt?_eq]
  cases cs with
  | nil => rfl
  | cons c cs =>
      dsimp only [List.head?_cons]
      split
      · next hquote =>
        subst hquote
        have hstop : runEnd isTextChar source (offset + 1) =
            offset + byteCount ('"' :: cs.takeWhile isTextChar) := by
          rw [byteCount_cons, ← Nat.add_assoc]
          exact runEnd_eq h.tail
        have hafter : (ofSource source).Advances
            ⟨offset + byteCount ('"' :: cs.takeWhile isTextChar), cs.dropWhile isTextChar⟩ :=
          h.trans ⟨'"' :: cs.takeWhile isTextChar,
            congrArg (List.cons '"') List.takeWhile_append_dropWhile.symm, rfl⟩
        rw [hstop, hafter.charAt?_eq]
        cases (cs.dropWhile isTextChar).head? with
        | none => rfl
        | some d =>
            dsimp only
            split
            · exact congrArg (Prod.mk Shape.text) (by rw [byteCount_append, ← Nat.add_assoc]; rfl)
            · rfl
      · split
        · rw [runEnd_eq h]
        · cases Symbol.ofChar? c <;> simp

/-- The shape of the token that some characters begin with, with those passed and those behind
them. -/
inductive Shaped (offset : Nat) : List Char → Shape → List Char → List Char → Prop
  | finish : Shaped offset [] .finish [] []
  | text {cs after : List Char} : cs.dropWhile isTextChar = '"' :: after →
      Shaped offset ('"' :: cs) .text ('"' :: (cs.takeWhile isTextChar ++ ['"'])) after
  | openText {cs : List Char} {reach : Nat} : (∀ after, cs.dropWhile isTextChar ≠ '"' :: after) →
      offset ≤ reach → reach ≤ offset + byteCount ('"' :: cs) →
      Shaped offset ('"' :: cs) (.refusal .unterminatedText reach) ('"' :: cs.takeWhile isTextChar)
        (cs.dropWhile isTextChar)
  | word {c : Char} {cs : List Char} : c ≠ '"' → isWordChar c = true →
      Shaped offset (c :: cs) .word ((c :: cs).takeWhile isWordChar) ((c :: cs).dropWhile isWordChar)
  | symbol {c : Char} {cs : List Char} {s : Symbol} : c ≠ '"' → isWordChar c = false →
      Symbol.ofChar? c = some s → Shaped offset (c :: cs) (.symbol s) [c] cs
  | unknown {c : Char} {cs : List Char} : c ≠ '"' → isWordChar c = false → Symbol.ofChar? c = none →
      Shaped offset (c :: cs) (.refusal (.unknownCharacter c) offset) [] (c :: cs)

theorem Scanner.shape_shaped (s : Scanner) :
    ∃ after, Shaped s.offset s.rest s.shape.1 s.shape.2 after := by
  obtain ⟨offset, cs⟩ := s
  unfold shape
  cases cs with
  | nil => exact ⟨[], .finish⟩
  | cons c cs =>
      dsimp only
      split
      · next hquote =>
        subst hquote
        have hbytes : byteCount cs =
            byteCount (cs.takeWhile isTextChar) + byteCount (cs.dropWhile isTextChar) := by
          rw [← byteCount_append, List.takeWhile_append_dropWhile]
        cases hrest : cs.dropWhile isTextChar with
        | nil =>
            refine ⟨_, .openText (by simp [hrest]) (Nat.le_add_right _ _) (Nat.add_le_add_left ?_ _)⟩
            rw [byteCount_cons, byteCount_cons, hbytes]
            omega
        | cons d rest =>
            dsimp only [List.head?_cons]
            split
            · next hd =>
              subst hd
              exact ⟨rest, .text hrest⟩
            · next hd =>
              have hpos := d.utf8Size_pos
              refine ⟨_, .openText (by simp [hrest, hd]) ?_ ?_⟩
              · exact Nat.le_trans (Nat.le_add_right _ _) (Nat.le_succ _)
              · rw [byteCount_cons, byteCount_cons, hbytes, hrest, byteCount_cons]
                omega
      · next hquote =>
        split
        · next hword => exact ⟨_, .word hquote hword⟩
        · next hword =>
          have hword := Bool.eq_false_iff.mpr hword
          cases hsymbol : Symbol.ofChar? c with
          | some symbol => exact ⟨_, .symbol hquote hword hsymbol⟩
          | none => exact ⟨_, .unknown hquote hword hsymbol⟩

namespace Shaped

variable {offset : Nat} {cs passed after : List Char} {shape : Shape}

theorem append_eq (h : Shaped offset cs shape passed after) : cs = passed ++ after := by
  cases h with
  | finish | symbol | unknown => rfl
  | @text cs after hrest =>
      have hparts := List.takeWhile_append_dropWhile (p := isTextChar) (l := cs)
      rw [hrest] at hparts
      simp [hparts]
  | openText => exact congrArg (List.cons '"') List.takeWhile_append_dropWhile.symm
  | word => exact List.takeWhile_append_dropWhile.symm

/-- A word ends with a character of one byte. -/
theorem exists_last (h : Shaped offset cs .word passed after) :
    ∃ init d, passed = init ++ [d] ∧ d.utf8Size = 1 := by
  cases h with
  | @word c cs _ hc =>
      have hne : (c :: cs).takeWhile isWordChar ≠ [] := by
        rw [List.takeWhile_cons_of_pos hc]
        exact List.cons_ne_nil _ _
      have hlast := List.mem_takeWhile_imp (List.getLast_mem hne)
      exact ⟨_, _, (List.dropLast_concat_getLast hne).symm, utf8Size_of_isWordChar hlast⟩

/-- A string constant stands between quotes. -/
theorem exists_body (h : Shaped offset cs .text passed after) :
    ∃ body, passed = '"' :: (body ++ ['"']) := by
  cases h with
  | text => exact ⟨_, rfl⟩

/-- The reach of a refused piece is in the text. -/
theorem reach_le {cause : LexicalCause} {reach : Nat}
    (h : Shaped offset cs (.refusal cause reach) passed after) :
    offset ≤ reach ∧ reach ≤ offset + byteCount cs := by
  cases h with
  | openText _ hle hreach => exact ⟨hle, hreach⟩
  | unknown => exact ⟨Nat.le_refl _, Nat.le_add_right _ _⟩

end Shaped

/-! ## Answers -/

/-- A call ends where the token was passed, or one byte before at a word that is no name. -/
theorem Shape.answer?_offset {cut? : Span → Option String} {start stop i : Nat} {shape : Shape}
    {r : Except Complaint Token} (h : shape.answer? cut? start stop = some (r, i)) :
    i = stop ∨ shape = .word ∧ i = stop - 1 := by
  cases shape with
  | word =>
      simp only [answer?, Option.bind_eq_bind, Option.bind_eq_some_iff] at h
      obtain ⟨span, -, text, -, h⟩ := h
      split at h <;> cases h
      · exact .inl rfl
      · exact .inr ⟨rfl, rfl⟩
  | text =>
      simp only [answer?, Option.bind_eq_bind, Option.bind_eq_some_iff] at h
      obtain ⟨span, -, text, -, -, -, h⟩ := h
      cases h
      exact .inl rfl
  | symbol | finish | refusal =>
      simp only [answer?, Option.bind_eq_bind, Option.bind_eq_some_iff] at h
      obtain ⟨span, -, text, -, h⟩ := h
      cases h
      exact .inl rfl

/-- A scanner moved by a number of bytes. -/
def Scanner.moved (s : Scanner) (n : Nat) : Scanner :=
  ⟨s.offset + n, ((splitBytes? n s.rest).map Prod.snd).getD []⟩

theorem Scanner.advances_moved {s : Scanner} {passed : List Char} (h : passed <+: s.rest) :
    s.Advances (s.moved (byteCount passed)) := by
  obtain ⟨after, hrest⟩ := h
  refine ⟨passed, ?_, rfl⟩
  rw [moved, ← hrest, splitBytes?_byteCount]
  rfl

/-- A source, a scanner in it, and whether a token was met whose text cannot be had. -/
structure Walker where
  source : List Char
  scanner : Scanner
  torn : Bool

namespace Walker

/-- A walker at the start of a source. -/
def ofChars (source : List Char) : Walker :=
  ⟨source, ⟨0, source⟩, false⟩

/-- What a walker answers where a scanner stands, about characters passed from there on that make a
token of a given shape, which may begin before. -/
def answer (w : Walker) (s : Scanner) (start : Nat) (shape : Shape) (passed : List Char) :
    Except Complaint Token × Walker :=
  match shape.answer? (fun span => span.piece? w.source) start (s.offset + byteCount passed) with
  | some (r, i) => (r, { w with scanner := s.moved (i - s.offset) })
  | none => (.error Cursor.tear, { w with torn := true })

/-- Scan the next token. -/
def next (w : Walker) : Except Complaint Token × Walker :=
  match skipGap .between w.scanner.offset w.scanner.rest with
  | (.error e, s) => w.answer s e.offset (.refusal .unterminatedComment s.offset) []
  | (.ok (), s) => w.answer s s.offset s.shape.1 s.shape.2

end Walker

instance : TokenFeed Walker := ⟨Walker.next, fun w => w.scanner.offset⟩

/-- A walker is where a cursor is. -/
structure Follows (c : Cursor) (w : Walker) : Prop where
  source : c.source = String.ofList w.source
  offset : c.offset = w.scanner.offset
  torn : c.torn = w.torn
  reached : (Scanner.ofSource c.source).Advances w.scanner

namespace Follows

variable {c : Cursor} {w : Walker}

theorem answer (h : Follows c w) {s : Scanner} (hs : (Scanner.ofSource c.source).Advances s)
    (start : Nat) {shape : Shape} {passed : List Char} (hpassed : passed <+: s.rest)
    (hword : shape = .word → ∃ init d, passed = init ++ [d] ∧ d.utf8Size = 1) :
    (w.answer s start shape passed).1 = (c.answer start shape (s.offset + byteCount passed)).1 ∧
      Follows (c.answer start shape (s.offset + byteCount passed)).2
        (w.answer s start shape passed).2 := by
  have hcut : (fun span : Span => span.cut? c.source) = fun span => span.piece? w.source := by
    funext span
    rw [h.source, Span.cut?_ofList]
  unfold Walker.answer Cursor.answer
  rw [hcut]
  cases hanswer : shape.answer? (fun span => span.piece? w.source) start
      (s.offset + byteCount passed) with
  | none => exact ⟨rfl, h.source, h.offset, rfl, h.reached⟩
  | some p =>
      obtain ⟨r, i⟩ := p
      obtain ⟨before, hbefore, hi⟩ :
          ∃ before, before <+: s.rest ∧ i = s.offset + byteCount before := by
        rcases Shape.answer?_offset hanswer with rfl | ⟨hshape, rfl⟩
        · exact ⟨passed, hpassed, rfl⟩
        · obtain ⟨init, d, rfl, hd⟩ := hword hshape
          refine ⟨init, (List.prefix_append init [d]).trans hpassed, ?_⟩
          rw [byteCount_append, byteCount_cons, hd, byteCount_nil]
          omega
      have hmoved : i - s.offset = byteCount before := by omega
      dsimp only
      rw [hmoved]
      exact ⟨rfl, h.source, hi, h.torn, hs.trans (advances_moved hbefore)⟩

theorem next (h : Follows c w) : w.next.1 = c.next.1 ∧ Follows c.next.2 w.next.2 := by
  unfold Walker.next Cursor.next
  rw [h.offset, skipFrom_eq h.reached]
  have hs := h.reached.trans (skipGap_advances .between w.scanner.offset w.scanner.rest)
  generalize skipGap .between w.scanner.offset w.scanner.rest = gap at hs
  obtain ⟨r, s⟩ := gap
  cases r with
  | error e => exact h.answer hs e.offset List.nil_prefix nofun
  | ok =>
      dsimp only [gapFault?]
      rw [shapeAt_eq hs]
      obtain ⟨after, hshape⟩ := s.shape_shaped
      refine h.answer hs s.offset ⟨after, hshape.append_eq.symm⟩ fun hword => ?_
      rw [hword] at hshape
      exact hshape.exists_last

end Follows

/-- A cursor and the walker that is where it is answer alike. -/
theorem follows_answersAlike : TokenFeed.AnswersAlike Follows where
  offset _ _ h := h.offset.symm
  answer _ _ h := h.next.1
  next _ _ h := h.next.2

end JackCompiler
