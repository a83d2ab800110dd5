import JackCompiler.Proofs.Lexis.Decomposition
import JackCompiler.Proofs.Safety.Calls

/-!
# Calling a scanner for ever

A scanner may be called on and on, also after a complaint and after the end. The tokens that it
answers follow one another in the source, and a complaint leaves it at a known place of what the
complaint is about. Every call moves it forward unless the answer is the end or an unknown
character, and either of these two is then the answer to all later calls. So after one call for each
byte of the source the answer does not change any more.

## Implementation notes

The bytes of the source are what the moves are paid with. The scanner need not have come to the end
by then, since an unknown character keeps it where it is.
-/

namespace JackCompiler

/-! ## What is given up -/

/-- What a scanner passes of a piece that it complains about, and how what it leaves begins. A
string constant is given up at the line break or the end that cuts it, a comment at the end, a
malformed word before its last character, and an unknown character is not passed. -/
inductive LexicalCause.GivenUp : LexicalCause → List Char → List Char → Prop
  | text {body rest : List Char} :
      (∀ c ∈ body, c ≠ '"' ∧ c ≠ '\r' ∧ c ≠ '\n') → (∀ c ∈ rest.head?, c = '\r' ∨ c = '\n') →
      GivenUp .unterminatedText ('"' :: body) rest
  | comment {body : List Char} : GivenUp .unterminatedComment ('/' :: '*' :: body) []
  | name {first last : Char} {middle rest : List Char} :
      first.isDigit = true → (∀ c ∈ first :: (middle ++ [last]), isWordChar c = true) →
      (∀ c ∈ rest.head?, isWordChar c = false) →
      GivenUp (.malformedName (.ofList (first :: (middle ++ [last])))) (first :: middle)
        (last :: rest)
  | character {c : Char} {rest : List Char} : GivenUp (.unknownCharacter c) [] (c :: rest)

/-- Only an unknown character is not passed at all. -/
theorem LexicalCause.GivenUp.passed_ne_nil {cause : LexicalCause} {passed rest : List Char}
    (h : cause.GivenUp passed rest) (hcause : ∀ c, cause ≠ .unknownCharacter c) : passed ≠ [] := by
  cases h with
  | text | comment | name => exact List.cons_ne_nil _ _
  | @character c => exact absurd rfl (hcause c)

theorem readText_givenUp {cs passed rest : List Char} {cause : LexicalCause}
    (h : readText cs = .refusal cause passed rest) : cause.GivenUp passed rest := by
  unfold readText at h
  dsimp only at h
  split at h
  · cases h
  · next hquote =>
    cases h
    refine .text (fun c hc => isTextChar_iff.mp (List.mem_takeWhile_imp hc)) fun c hc => ?_
    have hstop := List.head?_dropWhile_not isTextChar cs
    rw [Option.mem_def.mp hc] at hstop
    obtain ⟨ds, hds⟩ := List.head?_eq_some_iff.mp hc
    have hne : c ≠ '"' := by
      rintro rfl
      exact hquote ds hds
    have hbreak : isLineBreak c = true := by simpa [isTextChar, hne] using hstop
    simpa [isLineBreak] using hbreak

/-- A malformed word has a last character behind its first one, for a single digit is a number. -/
theorem readWord_givenUp {c : Char} {cs passed rest : List Char} {cause : LexicalCause}
    (hc : isWordChar c = true) (h : readWord (c :: cs) = .refusal cause passed rest) :
    cause.GivenUp passed rest := by
  have hword : IsWord [] ((c :: cs).dropWhile isWordChar) ((c :: cs).takeWhile isWordChar) :=
    .of_takeWhile hc .nil
  unfold readWord at h
  dsimp only at h
  split at h
  · cases h
  · next hkind =>
    cases h
    obtain ⟨hdigits, hhead, rfl⟩ := wordKind_eq_error_iff.mp hkind
    rw [List.takeWhile_cons_of_pos hc] at hword hdigits hhead ⊢
    have hfirst : c.isDigit = true := by simpa using hhead
    rcases List.eq_nil_or_concat (cs.takeWhile isWordChar) with hnil | ⟨middle, last, hlast⟩
    · rw [hnil, List.all_cons, hfirst] at hdigits
      cases hdigits
    · rw [List.concat_eq_append] at hlast
      rw [hlast] at hword ⊢
      rw [← List.cons_append, List.dropLast_concat, List.getLast?_concat]
      exact .name hfirst hword.inside hword.ends

theorem readLexeme_givenUp {cs passed rest : List Char} {cause : LexicalCause}
    (h : readLexeme cs = .refusal cause passed rest) : cause.GivenUp passed rest := by
  cases cs with
  | nil => cases h
  | cons c cs =>
      rw [readLexeme] at h
      split at h
      · exact readText_givenUp h
      · split at h
        · next hword => exact readWord_givenUp hword h
        · split at h
          · cases h
          · cases h
            exact .character

namespace Scanner

variable {s s' : Scanner} {t : Token} {e : Complaint} {r : Except Complaint Token}

/-- A complaint stands before the piece that it is about, and the scanner goes on where it gave that
piece up. -/
theorem next_error_givenUp (h : s.next = (.error e, s')) :
    ∃ cause at_ passed, e.cause = .lexical cause ∧ s.Advances at_ ∧ at_.offset = e.offset ∧
      at_.rest = passed ++ s'.rest ∧ s'.offset = at_.offset + byteCount passed ∧
      cause.GivenUp passed s'.rest := by
  have hmoves := s.next_advances
  rw [h] at hmoves
  have hgap := skipGap_advances .between s.offset s.rest
  unfold next at h
  split at h
  · next hskip =>
    cases h
    have hrest := skipGap_error_rest hskip
    obtain ⟨hcause, hstart | ⟨at_, hadv, hoffset, body, hbody⟩⟩ := skipGap_error hskip
    · cases hstart
    · refine ⟨_, at_, at_.rest, hcause, hadv, hoffset, by rw [hrest, List.append_nil], ?_, ?_⟩
      · have hsize := hmoves.size_eq.trans hadv.size_eq.symm
        rwa [hrest, byteCount_nil, Nat.add_zero] at hsize
      · rw [hrest, ← hbody]
        exact .comment
  · next gap hskip =>
    rw [hskip] at hgap
    unfold lexeme at h
    split at h
    · cases h
    · next cause passed rest hread =>
      cases h
      have hsplit := readLexeme_passed_append_rest gap.rest
      rw [hread] at hsplit
      exact ⟨_, gap, passed, rfl, hgap, rfl, hsplit.symm, rfl, readLexeme_givenUp hread⟩

/-! ## Answers that stay -/

/-- The end of a source, or a character that no token begins with. -/
def StaysWith : Except Complaint Token → Prop
  | .ok t => t.kind = .finish
  | .error e => ∃ c, e.cause = .lexical (.unknownCharacter c)

theorem next_finish (h : s.next = (.ok t, s')) (hk : t.kind = .finish) :
    t = .finish s'.offset ∧ s'.rest = [] := by
  refine ⟨?_, (next_ok h).finished hk⟩
  unfold next at h
  split at h
  · cases h
  · next gap hskip =>
    unfold lexeme at h
    split at h
    · next kind text rest hread =>
      cases h
      have hnil := (readLexeme_token hread).2.1 hk
      rw [hnil] at hread
      cases hread
      rfl
    · cases h

theorem next_unknown {c : Char} (h : s.next = (.error e, s'))
    (hc : e.cause = .lexical (.unknownCharacter c)) : s'.next = (.error e, s') := by
  unfold next at h
  split at h
  · next hskip =>
    cases h
    rw [(skipGap_error hskip).1] at hc
    cases hc
  · next gap hskip =>
    have hlexeme := h
    obtain ⟨-, -, -, hsettled⟩ := skipGap_passed hskip
    unfold lexeme at h
    split at h
    · cases h
    · next hread =>
      cases h
      cases hc
      have hsplit := readLexeme_passed_append_rest gap.rest
      rw [hread] at hsplit
      cases readLexeme_givenUp hread with
      | character =>
          -- Nothing was passed, so the scanner still stands where no gap begins.
          have hgap : Scanner.mk (gap.offset + byteCount []) gap.rest = gap := rfl
          simp only [Reading.passed, Reading.rest, List.nil_append] at hsplit
          rw [hsplit, hgap] at hlexeme ⊢
          rw [next, skipGap_of_settled hsettled]
          exact hlexeme

/-- An answer that stays is given again, and the scanner does not move any more. -/
theorem next_stays (h : s.next = (r, s')) (hr : StaysWith r) : s'.next = (r, s') := by
  cases r with
  | ok t =>
      obtain ⟨rfl, hrest⟩ := next_finish h hr
      exact next_of_rest_nil hrest
  | error e =>
      obtain ⟨c, hc⟩ := hr
      exact next_unknown h hc

/-- A call that answers anything else moves the scanner forward. -/
theorem next_progress (h : s.next = (r, s')) (hr : ¬StaysWith r) : s.offset < s'.offset := by
  cases r with
  | ok t =>
      have hscanned := next_ok h
      have hshorter := hscanned.shorter hr
      have hsize := hscanned.advances.size_eq
      omega
  | error e =>
      obtain ⟨cause, at_, passed, hcause, hadvances, -, -, hoffset, hgiven⟩ := next_error_givenUp h
      obtain ⟨pre, -, hat⟩ := hadvances
      have hpos := byteCount_pos (hgiven.passed_ne_nil fun c hc => hr ⟨c, hc ▸ hcause⟩)
      omega

/-! ## Many calls -/

/-- The scanner after a number of calls. -/
def after (s : Scanner) (n : Nat) : Scanner :=
  (fun s => s.next.2)^[n] s

theorem after_succ (s : Scanner) (n : Nat) : s.after (n + 1) = s.next.2.after n :=
  Function.iterate_succ_apply _ n s

theorem after_succ' (s : Scanner) (n : Nat) : s.after (n + 1) = (s.after n).next.2 :=
  Function.iterate_succ_apply' _ n s

theorem after_advances (s : Scanner) (n : Nat) : s.Advances (s.after n) := by
  induction n with
  | zero => exact .refl s
  | succ n ih =>
      rw [after_succ']
      exact ih.trans (next_advances _)

theorem Reached.after {source : String} (h : Reached source s) (n : Nat) :
    Reached source (s.after n) := by
  induction n with
  | zero => exact h
  | succ n ih =>
      rw [after_succ']
      exact ih.call

theorem calls_succ (n : Nat) (s : Scanner) : calls (n + 1) s = s.next.1 :: calls n s.next.2 := rfl

theorem calls_length (n : Nat) (s : Scanner) : (calls n s).length = n := by
  induction n generalizing s with
  | zero => rfl
  | succ n ih => rw [calls_succ, List.length_cons, ih]

/-- Later calls begin where earlier ones left the scanner. -/
theorem calls_add (n k : Nat) (s : Scanner) :
    calls (n + k) s = calls n s ++ calls k (s.after n) := by
  induction n generalizing s with
  | zero => rw [Nat.zero_add]; rfl
  | succ n ih => rw [Nat.succ_add, calls_succ, calls_succ, ih, after_succ, List.cons_append]

theorem calls_of_fixed (h : s.next = (r, s)) (k : Nat) : calls k s = List.replicate k r := by
  induction k with
  | zero => rfl
  | succ k ih => rw [calls_succ, h, ih, List.replicate_succ]

/-- Each call costs a byte, until an answer stays. -/
theorem after_cases (s : Scanner) (n : Nat) : s.offset + n ≤ (s.after n).offset ∨
    ∃ r, StaysWith r ∧ (s.after n).next = (r, s.after n) := by
  induction n with
  | zero => exact .inl (Nat.le_refl _)
  | succ n ih =>
      rw [after_succ']
      rcases hnext : (s.after n).next with ⟨r, s'⟩
      rcases ih with hle | ⟨r', hr', hfixed⟩
      · by_cases hr : StaysWith r
        · exact .inr ⟨r, hr, next_stays hnext hr⟩
        · have hlt := next_progress hnext hr
          exact .inl (by dsimp only; omega)
      · obtain ⟨rfl, rfl⟩ := Prod.mk.inj (hfixed.symm.trans hnext)
        exact .inr ⟨r', hr', hfixed⟩

/-- After as many calls as there are bytes left one answer stays. -/
theorem exists_stays (s : Scanner) :
    ∃ r, StaysWith r ∧ (s.after (byteCount s.rest)).next = (r, s.after (byteCount s.rest)) := by
  rcases s.after_cases (byteCount s.rest) with hle | hfixed
  · have hsize := (s.after_advances (byteCount s.rest)).size_eq
    have hrest : (s.after (byteCount s.rest)).rest = [] := by
      by_contra hne
      have hpos := byteCount_pos hne
      omega
    exact ⟨.ok (.finish _), rfl, next_of_rest_nil hrest⟩
  · exact hfixed

/-! ## The tokens among the answers -/

/-- The tokens among the answers to a number of calls. -/
def returned (s : Scanner) (k : Nat) : List Token :=
  (calls k s).filterMap Except.toOption

theorem returned_succ_ok (h : s.next = (.ok t, s')) (k : Nat) :
    s.returned (k + 1) = t :: s'.returned k := by
  rw [returned, calls_succ, h]
  rfl

theorem returned_succ_error (h : s.next = (.error e, s')) (k : Nat) :
    s.returned (k + 1) = s'.returned k := by
  rw [returned, calls_succ, h]
  rfl

/-- What holds of every token that a call may answer holds of all of them. -/
theorem forall_mem_returned {source : String} {p : Token → Prop}
    (hp : ∀ {s s' t}, Reached source s → s.next = (.ok t, s') → p t) (hs : Reached source s)
    (k : Nat) : ∀ t ∈ s.returned k, p t := by
  induction k generalizing s with
  | zero => exact List.forall_mem_nil _
  | succ k ih =>
      have hcall := hs.call
      rcases hnext : s.next with ⟨e | t, s'⟩
      · rw [hnext] at hcall
        rw [returned_succ_error hnext]
        exact ih hcall
      · rw [hnext] at hcall
        rw [returned_succ_ok hnext]
        exact List.forall_mem_cons.mpr ⟨hp hs hnext, ih hcall⟩

theorem start_le_of_mem_returned (s : Scanner) (k : Nat) :
    ∀ t ∈ s.returned k, s.offset ≤ t.span.start := by
  induction k generalizing s with
  | zero => exact List.forall_mem_nil _
  | succ k ih =>
      have hmoves := s.next_advances
      rcases hnext : s.next with ⟨e | t, s'⟩
      · rw [hnext] at hmoves
        obtain ⟨pre, -, hoffset⟩ := hmoves
        rw [returned_succ_error hnext]
        intro u hu
        have hstart := ih s' u hu
        dsimp only at hoffset
        omega
      · rw [hnext] at hmoves
        obtain ⟨pre, -, hoffset⟩ := hmoves
        obtain ⟨gap, ⟨pre', -, hgap⟩, hstart, -, -⟩ := (next_ok hnext).placed
        rw [returned_succ_ok hnext]
        refine List.forall_mem_cons.mpr ⟨by omega, fun u hu => ?_⟩
        have hstart := ih s' u hu
        dsimp only at hoffset
        omega

/-- The spans of the tokens follow one another. -/
theorem returned_ascending (s : Scanner) (k : Nat) :
    (s.returned k).Pairwise fun t u => t.span.stop ≤ u.span.start := by
  induction k generalizing s with
  | zero => exact List.Pairwise.nil
  | succ k ih =>
      rcases hnext : s.next with ⟨e | t, s'⟩
      · rw [returned_succ_error hnext]
        exact ih s'
      · rw [returned_succ_ok hnext]
        refine List.pairwise_cons.mpr ⟨fun u hu => ?_, ih s'⟩
        rw [← (next_size hnext).2]
        exact start_le_of_mem_returned s' k u hu

/-- A token other than the end has the characters of a lexeme. -/
theorem next_isLexeme (h : s.next = (.ok t, s')) (hk : t.kind ≠ .finish) :
    IsLexeme [] s'.rest t.kind t.text.toList := by
  unfold next at h
  split at h
  · cases h
  · next gap hskip =>
    obtain ⟨-, -, -, hsettled⟩ := skipGap_passed hskip
    unfold lexeme at h
    split at h
    · next kind text rest hread =>
      cases h
      rw [String.toList_ofList]
      exact ((readLexeme_eq_token_iff hsettled .nil hk).mp hread).2
    · cases h

theorem next_size_pos (h : s.next = (.ok t, s')) (hk : t.kind ≠ .finish) : 0 < t.span.size := by
  rw [(next_size h).1]
  exact byteCount_pos (next_isLexeme h hk).ne_nil

/-- On a source an answer that stays is the end of the source or an unknown character. -/
theorem Reached.stays_cases {source : String} (h : Reached source s) (hnext : s.next = (r, s'))
    (hr : StaysWith r) : r = .ok (.finish (byteCount source.toList)) ∨
      ∃ c p, r = .error ⟨.lexical (.unknownCharacter c), p⟩ := by
  cases r with
  | ok t =>
      obtain ⟨ht, hrest⟩ := next_finish hnext hr
      have hsize := (h.advances.trans (next_ok hnext).advances).size_eq
      rw [hrest, byteCount_nil, Nat.add_zero] at hsize
      have hall : (ofSource source).offset + byteCount (ofSource source).rest =
          byteCount source.toList := Nat.zero_add _
      exact .inl (by rw [ht, hsize, hall])
  | error e =>
      obtain ⟨cause, p⟩ := e
      obtain ⟨c, rfl⟩ := hr
      exact .inr ⟨c, p, rfl⟩

theorem Reached.error_givenUp {source : String} (h : Reached source s)
    (hnext : s.next = (.error e, s')) : ∃ cause before passed, e.cause = .lexical cause ∧
      source.toList = before ++ (passed ++ s'.rest) ∧ e.offset = byteCount before ∧
      s'.offset = byteCount before + byteCount passed ∧ cause.GivenUp passed s'.rest := by
  obtain ⟨cause, at_, passed, hcause, hadvances, hoffset, hrest, hstop, hgiven⟩ :=
    next_error_givenUp hnext
  obtain ⟨before, hsource, hbefore⟩ := h.advances.trans hadvances
  have hbytes : at_.offset = byteCount before := hbefore.trans (Nat.zero_add _)
  refine ⟨cause, before, passed, hcause, ?_, ?_, ?_, hgiven⟩
  · rw [← hrest]
    exact hsource
  · rw [← hoffset, hbytes]
  · rw [hstop, hbytes]

/-- However often a scanner is called on a source, the tokens that it answers are fragments of the
source one behind the other, none of them empty but the end; a complaint leaves it in the middle or
behind what the complaint is about; and a call moves it forward unless it answers the end of the
source or an unknown character. After a call for each byte it answers one of these two for ever.
Iterating over the tokens ends by then, at the end of the source or with a complaint. -/
theorem calls_settle (source : String) :
    let size := byteCount source.toList
    let start := ofSource source
    (∀ k, (∀ t ∈ start.returned k, t.span.fragment? source = some t.text ∧ t.span.stop ≤ size ∧
          (t.kind ≠ .finish → 0 < t.span.size)) ∧
        (start.returned k).Pairwise fun t u => t.span.stop ≤ u.span.start) ∧
    (∀ s, Reached source s → ∀ e s', s.next = (.error e, s') → ∃ cause before passed,
      e.cause = .lexical cause ∧ source.toList = before ++ (passed ++ s'.rest) ∧
        e.offset = byteCount before ∧ s'.offset = byteCount before + byteCount passed ∧
        cause.GivenUp passed s'.rest) ∧
    (∀ s, Reached source s → s.next.1 = .ok (.finish size) ∨
      (∃ c p, s.next.1 = .error ⟨.lexical (.unknownCharacter c), p⟩) ∨
      s.offset < s.next.2.offset) ∧
    (∃ r, (r = .ok (.finish size) ∨ ∃ c p, r = .error ⟨.lexical (.unknownCharacter c), p⟩) ∧
      ∀ k, (start.calls (size + k)).drop size = List.replicate k r) ∧
    Scans start (tokensOf source) (faultOf? source) ∧
    ∀ m, size < m → start.tokensWithin m [] = (tokensOf source, faultOf? source) := by
  intro size start
  refine ⟨fun k => ⟨?_, returned_ascending start k⟩, fun s hs e s' hnext => hs.error_givenUp hnext,
    fun s hs => ?_, ?_, tokensOf_scans source, fun m hm => ?_⟩
  · refine forall_mem_returned (fun hs hnext => ?_) .start k
    obtain ⟨hfragment, hstop⟩ := next_fragment hnext hs.advances
    exact ⟨hfragment, hstop, next_size_pos hnext⟩
  · rcases hnext : s.next with ⟨r, s'⟩
    by_cases hr : StaysWith r
    · exact (hs.stays_cases hnext hr).imp_right .inl
    · exact .inr (.inr (next_progress hnext hr))
  · obtain ⟨r, hr, hfixed⟩ := start.exists_stays
    refine ⟨r, (Reached.start.after size).stays_cases hfixed hr, fun k => ?_⟩
    rw [calls_add, List.drop_left' (calls_length size start)]
    exact calls_of_fixed hfixed k
  · have hlength : start.rest.length < m :=
      Nat.lt_of_le_of_lt (length_le_byteCount source.toList) hm
    obtain ⟨ts, fault, htokens, hscans⟩ := tokensWithin_scans [] hlength
    obtain ⟨rfl, rfl⟩ := hscans.unique (tokensOf_scans source)
    exact htokens

/-- A malformed word is read again from its last character on, and what follows stays. -/
example : (ofSource "1a#").calls 4 =
    [.error ⟨.lexical (.malformedName "1a"), 0⟩, .ok ⟨.identifier, "a", ⟨1, 1⟩⟩,
      .error ⟨.lexical (.unknownCharacter '#'), 2⟩,
      .error ⟨.lexical (.unknownCharacter '#'), 2⟩] := by
  decide +kernel

end Scanner

end JackCompiler
