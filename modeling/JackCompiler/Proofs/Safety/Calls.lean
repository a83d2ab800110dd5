import JackCompiler.Proofs.Lexis.Gaps
import JackCompiler.Proofs.Safety.Slices
import JackCompiler.Proofs.Syntax.Sources

/-!
# Slices that the scanner takes

A scanner can be called any number of times, also after a complaint and after the end. Whatever the
source, every token that it answers is a fragment of the source, and so is what stands between the
quotes of a string constant; every complaint has a location, and a malformed word is a fragment too.
-/

namespace JackCompiler

namespace Scanner

/-- The scanners that calls on a source come to. -/
inductive Reached (source : String) : Scanner → Prop
  | start : Reached source (.ofSource source)
  | call {s : Scanner} : Reached source s → Reached source s.next.2

theorem next_advances (s : Scanner) : s.Advances s.next.2 := by
  have hgap := skipGap_advances .between s.offset s.rest
  unfold next
  split
  · next hskip =>
    rw [hskip] at hgap
    exact hgap
  · next s' hskip =>
    rw [hskip] at hgap
    exact hgap.trans s'.lexeme_advances

theorem Reached.advances {source : String} {s : Scanner} (h : Reached source s) :
    (ofSource source).Advances s := by
  induction h with
  | start => exact .refl _
  | call _ ih => exact ih.trans (next_advances _)

end Scanner

/-! ## Answers -/

/-- A token that a call answers with the scanner after it: it is the fragment of its span, which
ends where the scanner stands, and a string constant is made of quotes and the fragment between
them. -/
structure Token.Sliced (t : Token) (source : String) (s : Scanner) : Prop where
  fragment : t.span.fragment? source = some t.text
  start_le : t.span.start ≤ s.offset
  size_eq : t.span.size = s.offset - t.span.start
  stop : t.span.stop? = some s.offset
  contents : t.kind = .text → ∃ contents, t.text = "\"" ++ contents ++ "\"" ∧ 2 ≤ t.span.size ∧
    (Span.mk (t.span.start + 1) (t.span.size - 2)).fragment? source = some contents

/-- A complaint that a call makes with the scanner after it: it has a location that is cut from the
source, it stands before the scanner, and a malformed word is a fragment. -/
structure Complaint.Sliced (e : Complaint) (source : String) (s : Scanner) : Prop where
  offset_le : e.offset ≤ s.offset
  location : ∃ before after l, byteCount before = e.offset ∧
    Location.of? source e.offset = some l ∧ l.CutAt source before after
  word : ∀ w, e.cause = .lexical (.malformedName w) →
    (Span.mk e.offset (byteCount w.toList)).fragment? source = some w

/-- What a call answers, with the scanner after it, is a fragment or cut from fragments. -/
def SlicedAnswer (source : String) : Except Complaint Token × Scanner → Prop
  | (.ok t, s) => t.Sliced source s
  | (.error e, s) => e.Sliced source s

namespace Scanner

variable {source : String} {s s' : Scanner}

/-- A token is as large as its text, and the scanner stops right behind it. -/
theorem next_size {t : Token} (h : s.next = (.ok t, s')) :
    t.span.size = byteCount t.text.toList ∧ s'.offset = t.span.stop := by
  unfold next at h
  split at h
  · cases h
  · next gap _ =>
    unfold lexeme at h
    split at h
    · cases h
      rw [String.toList_ofList]
      exact ⟨rfl, rfl⟩
    · cases h

/-- A token stands in the source between what was passed before it and what the scanner leaves. -/
theorem next_split {t : Token} (h : s.next = (.ok t, s')) (hs : (ofSource source).Advances s) :
    ∃ before, source.toList = before ++ (t.text.toList ++ s'.rest) ∧
      t.span = ⟨byteCount before, byteCount t.text.toList⟩ := by
  obtain ⟨gap, hgap, hstart, -, hrest⟩ := (next_ok h).placed
  obtain ⟨before, -, hsource, hbefore, -, -⟩ := (hs.trans hgap).location
  refine ⟨before, ?_, ?_⟩
  · rw [hsource, hrest]
  · rw [hbefore, hstart, ← (next_size h).1]

theorem next_fragment {t : Token} (h : s.next = (.ok t, s')) (hs : (ofSource source).Advances s) :
    t.span.fragment? source = some t.text ∧ t.span.stop ≤ byteCount source.toList := by
  obtain ⟨before, hsource, hspan⟩ := next_split h hs
  constructor
  · rw [hspan, Span.fragment?_of_split _ _ _ hsource, String.ofList_toList]
  · rw [Span.stop, hspan, hsource, byteCount_append, byteCount_append, ← Nat.add_assoc]
    exact Nat.le_add_right _ _

theorem next_sliced {t : Token} (h : s.next = (.ok t, s'))
    (hs : (ofSource source).Advances s) (hsize : byteCount source.toList ≤ maxOffset) :
    t.Sliced source s' := by
  obtain ⟨htext, hstop⟩ := next_size h
  obtain ⟨hfragment, hle⟩ := next_fragment h hs
  refine ⟨hfragment, ?_, ?_, ?_, fun hk => ?_⟩
  · rw [hstop]
    exact Nat.le_add_right _ _
  · rw [hstop]
    exact (Nat.add_sub_cancel_left _ _).symm
  · exact Span.stop?_eq_some_iff.mpr ⟨hle.trans hsize, hstop.symm⟩
  · obtain ⟨before, hsource, hspan⟩ := next_split h hs
    obtain ⟨body, hbody⟩ := (next_ok h).quoted hk
    rw [hbody] at hsource htext
    have hquoted : byteCount ('"' :: (body ++ ['"'])) = byteCount body + 2 := by
      simp [show Char.utf8Size '"' = 1 from rfl]
      omega
    refine ⟨String.ofList body, String.toList_injective (by simpa using hbody), ?_, ?_⟩
    · rw [htext, hquoted]
      exact Nat.le_add_left _ _
    · have hsplit : source.toList = (before ++ ['"']) ++ (body ++ ('"' :: s'.rest)) := by
        rw [hsource]
        simp
      have hcut := Span.fragment?_of_split _ _ _ hsplit
      have hone : byteCount (before ++ ['"']) = t.span.start + 1 := by
        rw [hspan, byteCount_append]
        rfl
      rw [hone] at hcut
      rw [htext, hquoted, Nat.add_sub_cancel]
      exact hcut

theorem next_error_sliced {e : Complaint} (h : s.next = (.error e, s'))
    (hs : (ofSource source).Advances s) : e.Sliced source s' := by
  obtain ⟨-, -, at_, hadvances, hoffset, -⟩ := next_error h
  obtain ⟨before, -, hsource, hbefore, -, -⟩ := (hs.trans hadvances).location
  rw [hoffset] at hbefore
  obtain ⟨l, hl, hcut⟩ := Location.of?_cutAt hsource
  rw [hbefore] at hl
  have hlocation : ∃ before after l, byteCount before = e.offset ∧
      Location.of? source e.offset = some l ∧ l.CutAt source before after :=
    ⟨before, at_.rest, l, hbefore, hl, hcut⟩
  have hend := s.next_advances
  rw [h] at hend
  have hgap := skipGap_advances .between s.offset s.rest
  unfold next at h
  split at h
  · next hskip =>
    cases h
    refine ⟨?_, hlocation, fun w hw => ?_⟩
    · have hsize := (hs.trans hend).size_eq
      rw [skipGap_error_rest hskip, ← (hs.trans hadvances).size_eq, hoffset] at hsize
      simp only [byteCount_nil] at hsize
      omega
    · rw [(skipGap_error hskip).1] at hw
      cases hw
  · next gap hskip =>
    rw [hskip] at hgap
    unfold lexeme at h
    split at h
    · cases h
    · next hread =>
      cases h
      refine ⟨Nat.le_add_right _ _, hlocation, fun w hw => ?_⟩
      cases hw
      obtain ⟨after, hrest⟩ := readLexeme_refusal hread
      obtain ⟨before, -, hsource, hbefore, -, -⟩ := (hs.trans hgap).location
      rw [← hrest, LexicalCause.opening] at hsource
      dsimp only
      rw [← hbefore, Span.fragment?_of_split _ _ _ hsource, String.ofList_toList]

/-- Whatever a scanner is asked after any number of calls, what it answers is cut from fragments of
the source. -/
theorem Reached.slicedAnswer (h : Reached source s) (hsize : byteCount source.toList ≤ maxOffset) :
    SlicedAnswer source s.next := by
  rcases hnext : s.next with ⟨e | t, s'⟩
  · exact next_error_sliced hnext h.advances
  · exact next_sliced hnext h.advances hsize

end Scanner

end JackCompiler
