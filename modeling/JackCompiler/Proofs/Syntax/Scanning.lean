import JackCompiler.Token.Scanner

/-!
# What scanning a token does

Scanning moves a scanner over a piece of the text in front of it. A token other than the end takes
at least one character, and at the end there is no character left.
-/

namespace JackCompiler

theorem byteCount_pos {cs : List Char} (h : cs ≠ []) : 0 < byteCount cs := by
  cases cs with
  | nil => exact absurd rfl h
  | cons c cs =>
      rw [byteCount_cons]
      exact Nat.lt_of_lt_of_le c.utf8Size_pos (Nat.le_add_right _ _)

theorem length_le_byteCount (cs : List Char) : cs.length ≤ byteCount cs := by
  induction cs with
  | nil => exact Nat.le_refl 0
  | cons c cs ih =>
      have hpos := c.utf8Size_pos
      rw [List.length_cons, byteCount_cons]
      omega

/-- A string constant stands between quotes. -/
def Token.Quoted (t : Token) : Prop :=
  t.kind = .text → ∃ cs, t.text.toList = '"' :: (cs ++ ['"'])

theorem readWord_token {c : Char} {cs text rest : List Char} {kind : Kind}
    (hc : isWordChar c = true) (h : readWord (c :: cs) = .token kind text rest) :
    kind ≠ .text ∧ kind ≠ .finish ∧ text ≠ [] := by
  have hne : (c :: cs).takeWhile isWordChar ≠ [] := by
    rw [List.takeWhile_cons_of_pos hc]
    exact List.cons_ne_nil c _
  unfold readWord at h
  dsimp only at h
  split at h
  · next hkind =>
    cases h
    exact ⟨(wordKind_ok hkind).1, (wordKind_ok hkind).2, hne⟩
  · cases h

theorem readText_token {cs text rest : List Char} {kind : Kind}
    (h : readText cs = .token kind text rest) :
    kind = .text ∧ ∃ body, text = '"' :: (body ++ ['"']) := by
  unfold readText at h
  dsimp only at h
  split at h
  · cases h
    exact ⟨rfl, _, rfl⟩
  · cases h

/-- A lexeme is empty only at the end of a text, and a string constant stands between quotes. -/
theorem readLexeme_token {cs text rest : List Char} {kind : Kind}
    (h : readLexeme cs = .token kind text rest) :
    (kind = .text → ∃ body, text = '"' :: (body ++ ['"'])) ∧ (kind = .finish → cs = []) ∧
      (kind ≠ .finish → text ≠ []) := by
  cases cs with
  | nil =>
      cases h
      exact ⟨by simp, fun _ => rfl, fun hk => absurd rfl hk⟩
  | cons c cs =>
      rw [readLexeme] at h
      split at h
      · obtain ⟨rfl, body, rfl⟩ := readText_token h
        exact ⟨fun _ => ⟨body, rfl⟩, by simp, fun _ => List.cons_ne_nil _ _⟩
      · split at h
        · next hword =>
          obtain ⟨htext, hfinish, hne⟩ := readWord_token hword h
          exact ⟨fun hk => absurd hk htext, fun hk => absurd hk hfinish, fun _ => hne⟩
        · split at h
          · cases h
            exact ⟨by simp, by simp, fun _ => List.cons_ne_nil _ _⟩
          · cases h

namespace Scanner

/-- One scanner is another one moved over a piece of the text. -/
def Advances (s s' : Scanner) : Prop :=
  ∃ pre, s.rest = pre ++ s'.rest ∧ s'.offset = s.offset + byteCount pre

theorem Advances.refl (s : Scanner) : s.Advances s :=
  ⟨[], rfl, rfl⟩

theorem Advances.trans {s s' s'' : Scanner} (h : s.Advances s') (h' : s'.Advances s'') :
    s.Advances s'' := by
  obtain ⟨pre, hrest, hoffset⟩ := h
  obtain ⟨pre', hrest', hoffset'⟩ := h'
  refine ⟨pre ++ pre', by rw [hrest, hrest', List.append_assoc], ?_⟩
  calc s''.offset
      = s.offset + byteCount pre + byteCount pre' := by rw [hoffset', hoffset]
    _ = s.offset + byteCount (pre ++ pre') := by rw [byteCount_append, Nat.add_assoc]

theorem Advances.char {offset : Nat} {c : Char} {cs : List Char} :
    Advances ⟨offset, c :: cs⟩ ⟨offset + c.utf8Size, cs⟩ :=
  ⟨[c], rfl, by simp⟩

/-- A scanner keeps the number of bytes before and after it. -/
theorem Advances.size_eq {s s' : Scanner} (h : s.Advances s') :
    s'.offset + byteCount s'.rest = s.offset + byteCount s.rest := by
  obtain ⟨pre, hrest, hoffset⟩ := h
  calc s'.offset + byteCount s'.rest
      = s.offset + (byteCount pre + byteCount s'.rest) := by rw [hoffset, Nat.add_assoc]
    _ = s.offset + byteCount s.rest := by rw [hrest, byteCount_append]

theorem Advances.byteCount_le {s s' : Scanner} (h : s.Advances s') :
    byteCount s'.rest ≤ byteCount s.rest := by
  obtain ⟨pre, hrest, -⟩ := h
  rw [hrest, byteCount_append]
  exact Nat.le_add_left _ _

end Scanner

open Scanner

/-- Skipping a gap passes over a piece of the text and counts its bytes. -/
theorem skipGap_advances (g : Gap) (offset : Nat) (cs : List Char) :
    Advances ⟨offset, cs⟩ (skipGap g offset cs).2 := by
  fun_induction skipGap g offset cs with
  | case1 offset cs ih | case2 offset cs ih => exact (Advances.char.trans Advances.char).trans ih
  | case9 start offset cs ih => exact (Advances.char.trans Advances.char).trans ih
  | case3 offset c cs _ _ _ ih => exact Advances.char.trans ih
  | case6 offset c cs _ ih | case7 offset c cs _ ih => exact Advances.char.trans ih
  | case10 start offset c cs _ ih => exact Advances.char.trans ih
  | case4 | case5 | case8 | case11 => exact Advances.refl _

/-- How the piece of a text begins that a lexical cause is about. -/
def LexicalCause.opening : LexicalCause → List Char
  | unknownCharacter c => [c]
  | unterminatedText => ['"']
  | unterminatedComment => ['/', '*']
  | malformedName word => word.toList

/-- Only a block comment can be cut by the end of a text. The complaint about it stands where the
comment begins, which is in the text unless the comment began before it. -/
theorem skipGap_error {g : Gap} {offset : Nat} {cs : List Char} {e : Complaint} {s : Scanner}
    (h : skipGap g offset cs = (.error e, s)) :
    e.cause = .lexical .unterminatedComment ∧
      (g = .blockComment e.offset ∨ ∃ s', Advances ⟨offset, cs⟩ s' ∧ s'.offset = e.offset ∧
        LexicalCause.unterminatedComment.opening <+: s'.rest) := by
  have hlater {g' : Gap} {s₁ s₂ : Scanner} (hadv : s₁.Advances s₂) :
      (∃ s', s₂.Advances s' ∧ s'.offset = e.offset ∧
        LexicalCause.unterminatedComment.opening <+: s'.rest) →
        g' = .blockComment e.offset ∨ ∃ s', s₁.Advances s' ∧ s'.offset = e.offset ∧
          LexicalCause.unterminatedComment.opening <+: s'.rest := by
    rintro ⟨s', hadv', hin⟩
    exact .inr ⟨s', hadv.trans hadv', hin⟩
  fun_induction skipGap g offset cs with
  | case1 offset cs ih =>
      obtain ⟨hcause, hstart | hin⟩ := ih h
      · cases hstart
      · exact ⟨hcause, hlater (Advances.char.trans Advances.char) hin⟩
  | case2 offset cs ih =>
      obtain ⟨hcause, hstart | hin⟩ := ih h
      · cases hstart
        exact ⟨hcause, .inr ⟨_, Advances.refl _, rfl, List.prefix_append _ cs⟩⟩
      · exact ⟨hcause, hlater (Advances.char.trans Advances.char) hin⟩
  | case9 start offset cs ih =>
      obtain ⟨hcause, hstart | hin⟩ := ih h
      · cases hstart
      · exact ⟨hcause, hlater (Advances.char.trans Advances.char) hin⟩
  | case3 offset c cs _ _ _ ih | case6 offset c cs _ ih | case7 offset c cs _ ih =>
      obtain ⟨hcause, hstart | hin⟩ := ih h
      · cases hstart
      · exact ⟨hcause, hlater Advances.char hin⟩
  | case10 start offset c cs _ ih =>
      obtain ⟨hcause, hstart | hin⟩ := ih h
      · exact ⟨hcause, .inl hstart⟩
      · exact ⟨hcause, hlater Advances.char hin⟩
  | case4 | case5 | case8 => cases h
  | case11 start offset =>
      cases h
      exact ⟨rfl, .inl rfl⟩

/-- Whoever reaches the end of a source in an unterminated comment stands at the end. -/
theorem skipGap_error_rest {g : Gap} {offset : Nat} {cs : List Char} {e : Complaint}
    {s : Scanner} (h : skipGap g offset cs = (.error e, s)) : s.rest = [] := by
  fun_induction skipGap g offset cs with
  | case1 _ _ ih | case2 _ _ ih | case9 _ _ _ ih => exact ih h
  | case3 _ _ _ _ _ _ ih | case6 _ _ _ _ ih | case7 _ _ _ _ ih => exact ih h
  | case10 _ _ _ _ _ ih => exact ih h
  | case4 | case5 | case8 => cases h
  | case11 =>
      cases h
      rfl

namespace Scanner

/-- A token that was scanned, with the scanner after it. -/
structure Scanned (s : Scanner) (t : Token) (s' : Scanner) : Prop where
  quoted : t.Quoted
  placed : ∃ gap, s.Advances gap ∧ gap.offset = t.span.start ∧ gap.Advances s' ∧
    gap.rest = t.text.toList ++ s'.rest
  shorter : t.kind ≠ .finish → byteCount s'.rest < byteCount s.rest
  finished : t.kind = .finish → s'.rest = []

theorem Scanned.advances {s s' : Scanner} {t : Token} (h : s.Scanned t s') : s.Advances s' := by
  obtain ⟨gap, hgap, -, hgap', -⟩ := h.placed
  exact hgap.trans hgap'

theorem lexeme_advances (s : Scanner) : s.Advances s.lexeme.2 := by
  have hsplit := readLexeme_passed_append_rest s.rest
  unfold lexeme
  split
  · next h =>
    rw [h] at hsplit
    exact ⟨_, hsplit.symm, rfl⟩
  · next h =>
    rw [h] at hsplit
    exact ⟨_, hsplit.symm, rfl⟩

/-- What is known of a token that was scanned. -/
theorem next_ok {s s' : Scanner} {t : Token} (h : s.next = (.ok t, s')) : s.Scanned t s' := by
  have hgap := skipGap_advances .between s.offset s.rest
  unfold next at h
  split at h
  · cases h
  · next gap hskip =>
    rw [hskip] at hgap
    have hlexeme := gap.lexeme_advances
    rw [h] at hlexeme
    unfold lexeme at h
    split at h
    · next kind text rest hread =>
      obtain ⟨htext, hfinish, hne⟩ := readLexeme_token hread
      have hsplit := readLexeme_passed_append_rest gap.rest
      rw [hread] at hsplit
      cases h
      refine ⟨fun hk => ?_, ⟨gap, hgap, rfl, hlexeme, ?_⟩, fun hk => ?_, fun hk => ?_⟩
      · obtain ⟨body, rfl⟩ := htext hk
        exact ⟨body, String.toList_ofList⟩
      · rw [String.toList_ofList]
        exact hsplit.symm
      · have hle := hgap.byteCount_le
        have hpos := byteCount_pos (hne hk)
        have hlen := congrArg byteCount hsplit
        rw [byteCount_append] at hlen
        simp only [Reading.passed, Reading.rest] at hlen
        simp only at hle ⊢
        omega
      · rw [hfinish hk] at hsplit
        exact (List.append_eq_nil_iff.mp hsplit).2
    · cases h

theorem readLexeme_refusal {cs passed rest : List Char} {cause : LexicalCause}
    (h : readLexeme cs = .refusal cause passed rest) : cause.opening <+: cs := by
  cases cs with
  | nil => cases h
  | cons c cs =>
      rw [readLexeme] at h
      split at h
      · next hquote =>
        unfold readText at h
        dsimp only at h
        split at h <;> cases h
        exact hquote ▸ List.prefix_append ['"'] cs
      · split at h
        · unfold readWord at h
          dsimp only at h
          split at h
          · cases h
          · next hkind =>
            cases h
            obtain ⟨-, -, rfl⟩ := wordKind_eq_error_iff.mp hkind
            rw [LexicalCause.opening, String.toList_ofList]
            exact List.takeWhile_prefix _
        · split at h <;> cases h
          exact List.prefix_append [c] cs

/-- A complaint of a scanner is lexical and stands in its text where what it is about begins. -/
theorem next_error {s s' : Scanner} {e : Complaint} (h : s.next = (.error e, s')) :
    ∃ cause, e.cause = .lexical cause ∧
      ∃ s'', s.Advances s'' ∧ s''.offset = e.offset ∧ cause.opening <+: s''.rest := by
  have hgap := skipGap_advances .between s.offset s.rest
  unfold next at h
  split at h
  · next hskip =>
    cases h
    obtain ⟨hcause, hstart | hin⟩ := skipGap_error hskip
    · cases hstart
    · exact ⟨_, hcause, hin⟩
  · next gap hskip =>
    rw [hskip] at hgap
    unfold lexeme at h
    split at h
    · cases h
    · next hread =>
      cases h
      exact ⟨_, rfl, gap, hgap, rfl, readLexeme_refusal hread⟩

end Scanner

end JackCompiler
