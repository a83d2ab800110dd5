import JackCompiler.Proofs.Lexis.Fragments
import JackCompiler.Proofs.Lexis.Lexemes
import JackCompiler.Proofs.Syntax.Sources

/-!
# The decomposition of a source

A source that is scanned to its end is decomposed into the tokens that are scanned, and in no other
way. So every character of it is in one of the tokens or in a gap between them, and the spans of the
tokens follow one another.

## Implementation notes

What stands before a text decides where its tokens stand and whether a word begins with it. The
scanner only keeps the number of bytes, so the lemmas on one call name the text that was passed.
-/

namespace JackCompiler

/-! ## One call of the scanner -/

namespace Scanner

variable {before cs : List Char} {t : Token} {s' : Scanner}

theorem next_eq_token_iff (h : Apart before cs) (hk : t.kind ≠ .finish) :
    next ⟨byteCount before, cs⟩ = (.ok t, s') ↔
      ∃ gap text after, cs = gap ++ (text ++ after) ∧ IsGap gap (text ++ after) ∧
        IsLexeme (before ++ gap) after t.kind text ∧ t = .behind (before ++ gap) t.kind text ∧
        s' = ⟨byteCount (before ++ (gap ++ text)), after⟩ := by
  constructor
  · intro hnext
    unfold next at hnext
    split at hnext
    · cases hnext
    · next s hskip =>
      obtain ⟨gap, rfl, hoffset, hgap, hsettled⟩ := skipGap_eq_ok_iff.mp hskip
      have hbefore : Apart (before ++ gap) s.rest := h.append hgap.apart
      unfold lexeme at hnext
      split at hnext
      · next kind text after hread =>
        cases hnext
        obtain ⟨hrest, hlex⟩ := (readLexeme_eq_token_iff hsettled hbefore hk).mp hread
        dsimp only at hoffset
        rw [hrest] at hgap ⊢
        refine ⟨gap, text, after, rfl, hgap, hlex, ?_, ?_⟩
        · rw [Token.behind, hoffset, byteCount_append]
        · rw [hoffset, byteCount_append, byteCount_append, Nat.add_assoc]
      · cases hnext
  · rintro ⟨gap, text, after, rfl, hgap, hlex, ht, rfl⟩
    have hskip : skipGap .between (byteCount before) (gap ++ (text ++ after)) =
        (.ok (), ⟨byteCount (before ++ gap), text ++ after⟩) :=
      skipGap_eq_ok_iff.mpr ⟨gap, rfl, byteCount_append _ _, hgap, hlex.settled⟩
    have hread := (readLexeme_eq_token_iff hlex.settled (h.append hgap.apart) hk).mpr ⟨rfl, hlex⟩
    simp only [next, hskip, lexeme, hread]
    rw [ht]
    simp [Token.behind, Nat.add_assoc]

/-- The scanner meets the end exactly if it stands before a last gap. -/
theorem next_eq_finish_iff (hk : t.kind = .finish) :
    (∃ s', next ⟨byteCount before, cs⟩ = (.ok t, s')) ↔
      IsGap cs [] ∧ t = .finish (byteCount (before ++ cs)) := by
  constructor
  · rintro ⟨s', hnext⟩
    unfold next at hnext
    split at hnext
    · cases hnext
    · next s hskip =>
      obtain ⟨gap, rfl, hoffset, hgap, -⟩ := skipGap_eq_ok_iff.mp hskip
      unfold lexeme at hnext
      split at hnext
      · next kind text after hread =>
        cases hnext
        have hrest := (readLexeme_token hread).2.1 hk
        rw [hrest, readLexeme] at hread
        cases hread
        rw [hrest] at hgap ⊢
        rw [List.append_nil]
        refine ⟨hgap, ?_⟩
        rw [hoffset, byteCount_append]
        rfl
      · cases hnext
  · rintro ⟨hgap, rfl⟩
    have hskip : skipGap .between (byteCount before) cs =
        (.ok (), ⟨byteCount (before ++ cs), []⟩) :=
      skipGap_eq_ok_iff.mpr ⟨cs, (List.append_nil cs).symm, byteCount_append _ _, hgap, trivial⟩
    refine ⟨⟨byteCount (before ++ cs), []⟩, ?_⟩
    rw [next, hskip]
    rfl

end Scanner

/-! ## All calls -/

theorem Scans.unique {s : Scanner} {ts us : List Token} {e e' : Option Complaint}
    (h : Scans s ts e) (h' : Scans s us e') : ts = us ∧ e = e' := by
  induction h generalizing us with
  | finish hnext hk =>
      rcases h'.of_ok hnext with ⟨-, rfl, rfl⟩ | ⟨hne, -⟩
      · exact ⟨rfl, rfl⟩
      · exact absurd hk hne
  | token hnext hk _ ih =>
      rcases h'.of_ok hnext with ⟨hfinish, -⟩ | ⟨-, vs, rfl, hvs⟩
      · exact absurd hfinish hk
      · obtain ⟨rfl, rfl⟩ := ih hvs
        exact ⟨rfl, rfl⟩
  | fault hnext =>
      obtain ⟨rfl, rfl⟩ := h'.of_error hnext
      exact ⟨rfl, rfl⟩

theorem Apart.behind {before gap text after : List Char} {kind : Kind}
    (h : Apart before (gap ++ (text ++ after))) (hgap : IsGap gap (text ++ after))
    (hlex : IsLexeme (before ++ gap) after kind text) : Apart (before ++ (gap ++ text)) after := by
  rw [← List.append_assoc]
  exact (h.append hgap.apart).append hlex.apart

theorem Scans.decomposes {s : Scanner} {ts : List Token} (h : Scans s ts none)
    {before : List Char} (hs : s.offset = byteCount before) (hbefore : Apart before s.rest) :
    Decomposes before s.rest ts := by
  generalize he : none = e at h
  induction h generalizing before with
  | @finish s s' t hnext hk =>
      obtain ⟨offset, rest⟩ := s
      dsimp only at hs hbefore ⊢
      rw [hs] at hnext
      obtain ⟨hgap, rfl⟩ := (Scanner.next_eq_finish_iff hk).mp ⟨s', hnext⟩
      exact .finish hgap
  | @token s s' t ts e hnext hk _ ih =>
      obtain ⟨offset, rest⟩ := s
      dsimp only at hs hbefore ⊢
      rw [hs] at hnext
      obtain ⟨gap, text, after, rfl, hgap, hlex, ht, rfl⟩ :=
        (Scanner.next_eq_token_iff hbefore hk).mp hnext
      rw [ht]
      exact .token hgap hlex (ih rfl (hbefore.behind hgap hlex) he)
  | fault => cases he

theorem IsLexeme.kind_ne_finish {before after text : List Char} {kind : Kind}
    (h : IsLexeme before after kind text) : kind ≠ .finish := by
  rintro rfl
  cases h

theorem Decomposes.scans {before cs : List Char} {ts : List Token} (h : Decomposes before cs ts)
    (hbefore : Apart before cs) : Scans ⟨byteCount before, cs⟩ ts none := by
  induction h with
  | finish hgap =>
      obtain ⟨s', hnext⟩ := (Scanner.next_eq_finish_iff rfl).mpr ⟨hgap, rfl⟩
      exact .finish hnext rfl
  | token hgap hlex _ ih =>
      have hk := hlex.kind_ne_finish
      refine .token ?_ hk (ih (hbefore.behind hgap hlex))
      exact (Scanner.next_eq_token_iff hbefore hk).mpr ⟨_, _, _, rfl, hgap, hlex, rfl, rfl⟩

/-- The tokens of a source that is scanned to its end are those that decompose it. -/
theorem decomposes_iff {source : String} {ts : List Token} :
    Decomposes [] source.toList ts ↔ tokensOf source = ts ∧ faultOf? source = none := by
  have hscans := tokensOf_scans source
  constructor
  · intro h
    exact hscans.unique (h.scans .nil)
  · rintro ⟨rfl, hfault⟩
    rw [hfault] at hscans
    exact hscans.decomposes rfl .nil

/-! ## Where the tokens stand -/

namespace Decomposes

variable {before cs : List Char} {ts : List Token}

/-- Each token has its span in the text. -/
theorem fragment? {source : String} (h : Decomposes before cs ts)
    (hsource : source.toList = before ++ cs) :
    ∀ t ∈ ts, t.span.fragment? source = some t.text := by
  induction h with
  | @finish before gap _ =>
      simp only [List.mem_singleton, forall_eq]
      exact Span.fragment?_of_split _ [] [] (by simpa using hsource)
  | @token before gap text after kind ts _ _ _ ih =>
      rw [List.forall_mem_cons]
      constructor
      · exact Span.fragment?_of_split _ _ after (by simpa using hsource)
      · exact ih (by simpa using hsource)

theorem start_le (h : Decomposes before cs ts) : ∀ t ∈ ts, byteCount before ≤ t.span.start := by
  induction h with
  | @finish before gap _ => simp [Token.finish]
  | @token before gap text after kind ts _ _ _ ih =>
      rw [List.forall_mem_cons]
      constructor
      · simp [Token.behind]
      · intro t ht
        have := ih t ht
        rw [byteCount_append] at this
        omega

/-- The spans of the tokens follow one another. -/
theorem ascending (h : Decomposes before cs ts) :
    ts.Pairwise fun t u => t.span.stop ≤ u.span.start := by
  induction h with
  | finish => exact List.pairwise_singleton _ _
  | @token before gap text after kind ts _ _ hrest ih =>
      refine List.pairwise_cons.mpr ⟨fun u hu => ?_, ih⟩
      have hstart := hrest.start_le u hu
      simp only [Token.behind, Span.stop]
      simp only [byteCount_append] at hstart ⊢
      omega

theorem getLast? (h : Decomposes before cs ts) :
    ts.getLast? = some (.finish (byteCount (before ++ cs))) := by
  induction h with
  | finish => rfl
  | @token before gap text after kind ts _ _ hrest ih =>
      rw [List.getLast?_cons, ih]
      simp

end Decomposes

/-- The tokens of a source that is scanned to its end decompose it into longest pieces, and nothing
else does. Each of them is the fragment of the source that its span names, their spans follow one
another, and the last of them is the end behind the last byte. -/
theorem tokensOf_decompose (source : String) (h : faultOf? source = none) :
    (∀ ts, Decomposes [] source.toList ts ↔ ts = tokensOf source) ∧
      (∀ t ∈ tokensOf source, t.span.fragment? source = some t.text) ∧
      ((tokensOf source).Pairwise fun t u => t.span.stop ≤ u.span.start) ∧
      (tokensOf source).getLast? = some (.finish (byteCount source.toList)) := by
  have hdecomposes : Decomposes [] source.toList (tokensOf source) := decomposes_iff.mpr ⟨rfl, h⟩
  refine ⟨fun ts => ⟨fun hts => ?_, fun hts => hts ▸ hdecomposes⟩, ?_, ?_, ?_⟩
  · exact (decomposes_iff.mp hts).1.symm
  · exact hdecomposes.fragment? rfl
  · exact hdecomposes.ascending
  · exact hdecomposes.getLast?

/-- A source whose pieces touch: comments that do not close where they seem to, and a string
constant that looks like one. -/
def touchingSource : String :=
  "/*/ é*/a\"/*\"//x\r12/"

theorem touchingSource_decomposes : faultOf? touchingSource = none ∧
    Decomposes [] touchingSource.toList
      [⟨.identifier, "a", ⟨8, 1⟩⟩, ⟨.text, "\"/*\"", ⟨9, 4⟩⟩, ⟨.number, "12", ⟨17, 2⟩⟩,
        ⟨.symbol .slash, "/", ⟨19, 1⟩⟩, .finish 20] := by
  have hfault : faultOf? touchingSource = none := by decide +kernel
  exact ⟨hfault, ((tokensOf_decompose touchingSource hfault).1 _).mpr (by decide +kernel)⟩

end JackCompiler
