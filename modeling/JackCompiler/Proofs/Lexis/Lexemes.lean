import JackCompiler.Proofs.Lexis.Gaps
import Mathlib.Data.List.TakeWhile

/-!
# Reading a lexeme

Where no gap begins, reading gives a token exactly if the text begins with the characters of one.
A lexeme ends where another begins: no word goes on from the text before it or into the text behind
it.
-/

namespace JackCompiler

/-! ## Characters -/

/-- The code points of word characters. -/
theorem toNat_of_isWordChar {c : Char} (h : isWordChar c = true) :
    48 ≤ c.toNat ∧ c.toNat ≤ 57 ∨ 65 ≤ c.toNat ∧ c.toNat ≤ 90 ∨ c.toNat = 95 ∨
      97 ≤ c.toNat ∧ c.toNat ≤ 122 := by
  unfold isWordChar Char.isAlphanum Char.isAlpha Char.isUpper Char.isLower Char.isDigit at h
  simp only [Bool.or_eq_true, Bool.and_eq_true, decide_eq_true_eq, beq_iff_eq] at h
  rcases h with ((⟨hlo, hhi⟩ | ⟨hlo, hhi⟩) | ⟨hlo, hhi⟩) | rfl
  · exact .inr (.inl ⟨hlo, hhi⟩)
  · exact .inr (.inr (.inr ⟨hlo, hhi⟩))
  · exact .inl ⟨hlo, hhi⟩
  · exact .inr (.inr (.inl rfl))

theorem utf8Size_of_isWordChar {c : Char} (h : isWordChar c = true) : c.utf8Size = 1 := by
  have hrange := toNat_of_isWordChar h
  have hlow : c.toNat ≤ 127 := by omega
  exact Char.utf8Size_eq_one_iff.mpr hlow

theorem isBlank_of_isWordChar {c : Char} (h : isWordChar c = true) : isBlank c = false := by
  have hrange := toNat_of_isWordChar h
  simp only [isBlank, Bool.or_eq_false_iff, Bool.and_eq_false_iff, decide_eq_false_iff_not,
    beq_eq_false_iff_ne]
  omega

theorem isWordChar_of_isBlank {c : Char} (h : isBlank c = true) : isWordChar c = false := by
  rw [← Bool.not_eq_true]
  intro hword
  rw [isBlank_of_isWordChar hword] at h
  cases h

theorem isLineBreak_of_isWordChar {c : Char} (h : isWordChar c = true) : isLineBreak c = false := by
  rw [← Bool.not_eq_true]
  intro hbreak
  have hblank := isBlank_of_isLineBreak hbreak
  rw [isBlank_of_isWordChar h] at hblank
  cases hblank

theorem Symbol.isWordChar_char (s : Symbol) : isWordChar s.char = false := by
  cases s <;> decide

theorem Symbol.isBlank_char (s : Symbol) : isBlank s.char = false := by
  cases s <;> decide

theorem Symbol.char_ne_quote (s : Symbol) : s.char ≠ '"' := by
  cases s <;> decide

theorem Symbol.char_eq_slash_iff {s : Symbol} : s.char = '/' ↔ s = .slash := by
  cases s <;> decide

/-! ## Where words end -/

/-- No word goes on from one text into the next. -/
def Apart (before after : List Char) : Prop :=
  ∀ c ∈ before.getLast?, ∀ d ∈ after.head?, isWordChar d = true → isWordChar c = false

theorem Apart.nil {after : List Char} : Apart [] after := by
  intro c hc
  cases hc

theorem Apart.of_last (before : List Char) {after : List Char} {c : Char}
    (h : isWordChar c = false) : Apart (before ++ [c]) after := by
  intro d hd _ _ _
  rw [List.getLast?_concat] at hd
  cases hd
  exact h

theorem Apart.append {before piece after : List Char} (h : Apart before (piece ++ after))
    (h' : Apart piece after) : Apart (before ++ piece) after := by
  rcases List.eq_nil_or_concat piece with rfl | ⟨piece, c, rfl⟩
  · rwa [List.append_nil]
  · intro d hd
    rw [List.concat_eq_append, ← List.append_assoc, List.getLast?_concat] at hd
    exact h' d (by rwa [List.concat_eq_append, List.getLast?_concat])

/-- What ends a gap does not go on with a word. -/
theorem IsGap.apart {gap after : List Char} (h : IsGap gap after) : Apart gap after := by
  induction h with
  | nil => exact .nil
  | @blank c gap after hc _ ih =>
      exact Apart.append (.of_last [] (isWordChar_of_isBlank hc)) ih
  | @lineComment body gap after _ hhead _ ih =>
      have hbody : Apart ('/' :: '/' :: body) (gap ++ after) := by
        intro c _ d hd hword
        have hbreak := hhead d hd
        rw [isLineBreak_of_isWordChar hword] at hbreak
        cases hbreak
      exact hbody.append ih
  | @blockComment body gap after _ _ ih =>
      have hclose : Apart ('/' :: '*' :: (body ++ ['*', '/'])) (gap ++ after) := by
        have hlast : Apart ('/' :: '*' :: (body ++ ['*']) ++ ['/']) (gap ++ after) :=
          .of_last _ (by decide)
        simpa using hlast
      simpa using hclose.append ih

namespace IsLexeme

variable {before after text : List Char} {kind : Kind}

/-- The first character of a token shows that no gap begins there. -/
theorem settled (h : IsLexeme before after kind text) : Settled (text ++ after) := by
  have hword {word : List Char} (hw : IsWord before after word) : Settled (word ++ after) := by
    obtain ⟨c, cs, rfl⟩ := List.exists_cons_of_ne_nil hw.ne_nil
    have hc := hw.inside c List.mem_cons_self
    refine ⟨isBlank_of_isWordChar hc, ?_⟩
    rintro rfl
    cases hc
  cases h with
  | text => exact ⟨by decide, fun hquote => absurd hquote (by decide)⟩
  | number hw => exact hword hw
  | keyword hw => exact hword hw
  | identifier hw => exact hword hw
  | @symbol s hslash => exact ⟨s.isBlank_char, fun hc => hslash (Symbol.char_eq_slash_iff.mp hc)⟩

theorem ne_nil (h : IsLexeme before after kind text) : text ≠ [] := by
  cases h with
  | text | symbol => exact List.cons_ne_nil _ _
  | number hword | keyword hword | identifier hword => exact hword.ne_nil

/-- A word may follow a token only if the token is not one itself. -/
theorem apart (h : IsLexeme before after kind text) : Apart text after := by
  have hword {word : List Char} (hw : IsWord before after word) : Apart word after := by
    intro c _ d hd hdword
    rw [hw.ends d hd] at hdword
    cases hdword
  cases h with
  | @text body => exact Apart.of_last ('"' :: body) (by decide)
  | number hw => exact hword hw
  | keyword hw => exact hword hw
  | identifier hw => exact hword hw
  | @symbol s => exact Apart.of_last [] s.isWordChar_char

end IsLexeme

/-! ## Words -/

theorem takeWhile_append_of_ends {p : Char → Bool} {run after : List Char}
    (hrun : ∀ c ∈ run, p c = true) (hafter : ∀ c ∈ after.head?, p c = false) :
    (run ++ after).takeWhile p = run ∧ (run ++ after).dropWhile p = after := by
  rw [List.takeWhile_append_of_pos hrun, List.dropWhile_append_of_pos hrun]
  cases after with
  | nil => simp
  | cons c after =>
      have hc : p c = false := hafter c rfl
      simp [hc]

theorem Keyword.head?_isDigit (k : Keyword) : k.text.toList.head?.any Char.isDigit = false := by
  cases k <;> decide

theorem Keyword.ofText?_eq_none_iff {t : String} :
    Keyword.ofText? t = none ↔ ∀ k : Keyword, k.text ≠ t := by
  rw [Option.eq_none_iff_forall_ne_some]
  exact forall_congr' fun k => not_congr Keyword.ofText?_eq_some_iff

theorem head?_any_eq_false_iff {p : Char → Bool} {word : List Char} :
    word.head?.any p = false ↔ ∀ c ∈ word.head?, p c = false := by
  cases word <;> simp

theorem all_isDigit_eq_false {word : List Char} (hne : word ≠ [])
    (hhead : word.head?.any Char.isDigit = false) : word.all Char.isDigit = false := by
  obtain ⟨c, cs, rfl⟩ := List.exists_cons_of_ne_nil hne
  have hc : c.isDigit = false := hhead
  simp [hc]

namespace IsWord

variable {before after word : List Char}

/-- Reading stops behind the longest run that a text begins with. -/
theorem of_takeWhile {c : Char} {cs : List Char} (hc : isWordChar c = true)
    (hbefore : Apart before (c :: cs)) :
    IsWord before ((c :: cs).dropWhile isWordChar) ((c :: cs).takeWhile isWordChar) where
  ne_nil := by
    rw [List.takeWhile_cons_of_pos hc]
    exact List.cons_ne_nil _ _
  inside _ hd := List.mem_takeWhile_imp hd
  starts d hd := hbefore d hd c rfl hc
  ends d hd := by
    have := List.head?_dropWhile_not isWordChar (c :: cs)
    rw [Option.mem_def.mp hd] at this
    simpa using this

theorem of_readWord {cs text after : List Char} {kind : Kind}
    (h : readWord cs = .token kind text after) :
    text = cs.takeWhile isWordChar ∧ after = cs.dropWhile isWordChar := by
  unfold readWord at h
  dsimp only at h
  split at h <;> cases h
  exact ⟨rfl, rfl⟩

/-- A word is of the kind of the token that it is. -/
theorem wordKind_eq_ok_iff (h : IsWord before after word) {kind : Kind} :
    wordKind word = .ok kind ↔ IsLexeme before after kind word := by
  unfold wordKind
  constructor
  · intro hkind
    split at hkind
    · next hdigits =>
      cases hkind
      exact .number h (List.all_eq_true.mp hdigits)
    · split at hkind
      · cases hkind
      · next hhead =>
        split at hkind
        · next hk =>
          cases hkind
          rw [Keyword.ofText?_eq_some_iff] at hk
          exact .keyword h (by rw [hk, String.toList_ofList])
        · next hnone =>
          cases hkind
          rw [Keyword.ofText?_eq_none_iff] at hnone
          refine .identifier h ?_ fun k hk => hnone k ?_
          · exact head?_any_eq_false_iff.mp (Bool.eq_false_iff.mpr hhead)
          · rw [hk, String.ofList_toList]
  · intro hlex
    cases hlex with
    | text => exact absurd (h.inside '"' List.mem_cons_self) (by decide)
    | @symbol s =>
        have hs := h.inside s.char List.mem_cons_self
        rw [s.isWordChar_char] at hs
        cases hs
    | number _ hdigits => rw [if_pos (List.all_eq_true.mpr hdigits)]
    | @keyword _ k _ hk =>
        have hhead := k.head?_isDigit
        rw [← hk] at hhead
        have hdigits := all_isDigit_eq_false h.ne_nil hhead
        have hkeyword : Keyword.ofText? (String.ofList word) = some k := by
          rw [Keyword.ofText?_eq_some_iff, hk, String.ofList_toList]
        simp only [hdigits, hhead, hkeyword, Bool.false_eq_true, if_false]
    | identifier _ hhead hnone =>
        have hhead := head?_any_eq_false_iff.mpr hhead
        have hdigits := all_isDigit_eq_false h.ne_nil hhead
        have hkeyword : Keyword.ofText? (String.ofList word) = none := by
          rw [Keyword.ofText?_eq_none_iff]
          intro k hk
          exact hnone k (by rw [hk, String.toList_ofList])
        simp only [hdigits, hhead, hkeyword, Bool.false_eq_true, if_false]

/-- A word is read as the token that it is. -/
theorem readWord_eq_token_iff (h : IsWord before after word) {kind : Kind} :
    readWord (word ++ after) = .token kind word after ↔ IsLexeme before after kind word := by
  obtain ⟨htake, hdrop⟩ := takeWhile_append_of_ends h.inside h.ends
  rw [← h.wordKind_eq_ok_iff]
  simp only [readWord, htake, hdrop]
  cases wordKind word <;> simp

end IsWord

/-! ## Tokens -/

theorem isTextChar_iff {c : Char} : isTextChar c = true ↔ c ≠ '"' ∧ c ≠ '\r' ∧ c ≠ '\n' := by
  simp [isTextChar, isLineBreak]

theorem readText_eq_token_iff {cs text after : List Char} {kind : Kind} :
    readText cs = .token kind text after ↔ ∃ body, cs = body ++ '"' :: after ∧ kind = .text ∧
      text = '"' :: (body ++ ['"']) ∧ ∀ c ∈ body, c ≠ '"' ∧ c ≠ '\r' ∧ c ≠ '\n' := by
  unfold readText
  constructor
  · intro h
    dsimp only at h
    split at h
    · next rest hdrop =>
      cases h
      refine ⟨cs.takeWhile isTextChar, ?_, rfl, rfl, fun c hc => ?_⟩
      · rw [← hdrop, List.takeWhile_append_dropWhile]
      · exact isTextChar_iff.mp (List.mem_takeWhile_imp hc)
    · cases h
  · rintro ⟨body, rfl, rfl, rfl, hbody⟩
    have hinside : ∀ c ∈ body, isTextChar c = true :=
      fun c hc => isTextChar_iff.mpr (hbody c hc)
    have hends : ∀ c ∈ ('"' :: after).head?, isTextChar c = false := by
      intro c hc
      cases hc
      decide
    obtain ⟨htake, hdrop⟩ := takeWhile_append_of_ends hinside hends
    simp only [htake, hdrop]

/-- Where no gap begins, a token is read exactly if the text begins with its characters. -/
theorem readLexeme_eq_token_iff {before cs text after : List Char} {kind : Kind}
    (hsettled : Settled cs) (hbefore : Apart before cs) (hkind : kind ≠ .finish) :
    readLexeme cs = .token kind text after ↔
      cs = text ++ after ∧ IsLexeme before after kind text := by
  constructor
  · intro h
    have hsplit := readLexeme_passed_append_rest cs
    rw [h] at hsplit
    refine ⟨hsplit.symm, ?_⟩
    cases cs with
    | nil =>
        cases h
        exact absurd rfl hkind
    | cons c cs =>
        rw [readLexeme] at h
        split at h
        · obtain ⟨body, -, rfl, rfl, hbody⟩ := readText_eq_token_iff.mp h
          exact .text hbody
        · split at h
          · next hword =>
            obtain ⟨rfl, rfl⟩ := IsWord.of_readWord h
            have hw := IsWord.of_takeWhile hword hbefore
            rwa [← hw.readWord_eq_token_iff, List.takeWhile_append_dropWhile]
          · split at h
            · next s hs =>
              cases h
              rw [Symbol.ofChar?_eq_some_iff] at hs
              subst hs
              exact .symbol fun hs => hsettled.2 (Symbol.char_eq_slash_iff.mpr hs)
            · cases h
  · rintro ⟨rfl, hlex⟩
    have hword (hw : IsWord before after text) :
        readLexeme (text ++ after) = .token kind text after := by
      obtain ⟨c, cs, rfl⟩ := List.exists_cons_of_ne_nil hw.ne_nil
      have hc := hw.inside c List.mem_cons_self
      have hquote : c ≠ '"' := by
        rintro rfl
        cases hc
      rw [← hw.readWord_eq_token_iff] at hlex
      rw [List.cons_append, readLexeme, if_neg hquote, if_pos hc]
      exact hlex
    cases hlex with
    | @text body hbody =>
        rw [List.cons_append, readLexeme, if_pos rfl, readText_eq_token_iff]
        exact ⟨body, by simp, rfl, rfl, hbody⟩
    | number hw => exact hword hw
    | keyword hw => exact hword hw
    | identifier hw => exact hword hw
    | @symbol s =>
        rw [List.singleton_append, readLexeme, if_neg s.char_ne_quote,
          if_neg (by simp [s.isWordChar_char]), Symbol.ofChar?_char]

end JackCompiler
