import JackCompiler.Compiler
import JackCompiler.Proofs.Syntax.Declarations
import JackCompiler.Proofs.Syntax.Places

/-!
# Reading a source

The tokens of a source are all that its scanner yields, through the end or up to a complaint. What a
window shows and what its scanner still yields are always a last piece of these tokens, so what the
productions say about views is a fact about the tokens.

## Implementation notes

A window is one token ahead of its current one. A complaint of the scanner is therefore met while
the last token before it is still the lookahead.
-/

namespace JackCompiler

open Phrase Production

/-! ## The tokens of a source -/

/-- The tokens that a scanner yields, and the complaint that ends them if there is one. -/
inductive Scans : Scanner → List Token → Option Complaint → Prop
  | finish {s s' : Scanner} {t : Token} : s.next = (.ok t, s') → t.kind = .finish → Scans s [t] none
  | token {s s' : Scanner} {t : Token} {ts : List Token} {e : Option Complaint} :
      s.next = (.ok t, s') → t.kind ≠ .finish → Scans s' ts e → Scans s (t :: ts) e
  | fault {s s' : Scanner} {e : Complaint} : s.next = (.error e, s') → Scans s [] (some e)

theorem Scans.of_ok {s s' : Scanner} {t : Token} {ts : List Token} {e : Option Complaint}
    (h : Scans s ts e) (hnext : s.next = (.ok t, s')) :
    t.kind = .finish ∧ ts = [t] ∧ e = none ∨
      t.kind ≠ .finish ∧ ∃ us, ts = t :: us ∧ Scans s' us e := by
  cases h with
  | finish hnext' hk =>
      cases hnext.symm.trans hnext'
      exact .inl ⟨hk, rfl, rfl⟩
  | token hnext' hk hscans =>
      cases hnext.symm.trans hnext'
      exact .inr ⟨hk, _, rfl, hscans⟩
  | fault hnext' => cases hnext.symm.trans hnext'

theorem Scans.of_error {s s' : Scanner} {c : Complaint} {ts : List Token} {e : Option Complaint}
    (h : Scans s ts e) (hnext : s.next = (.error c, s')) : ts = [] ∧ e = some c := by
  cases h with
  | finish hnext' | token hnext' => cases hnext.symm.trans hnext'
  | fault hnext' =>
      cases hnext.symm.trans hnext'
      exact ⟨rfl, rfl⟩

namespace Scanner

theorem Scanned.length_lt {s s' : Scanner} {t : Token} (h : s.Scanned t s')
    (hk : t.kind ≠ .finish) : s'.rest.length < s.rest.length := by
  obtain ⟨pre, hrest, -⟩ := h.advances
  have hne : pre ≠ [] := by
    rintro rfl
    have hshorter := h.shorter hk
    rw [hrest, List.nil_append] at hshorter
    exact Nat.lt_irrefl _ hshorter
  have hpos := List.length_pos_iff.mpr hne
  rw [hrest, List.length_append]
  omega

theorem tokensWithin_scans {n : Nat} {s : Scanner} (tokens : List Token)
    (hn : s.rest.length < n) : ∃ ts e, tokensWithin n s tokens = (tokens.reverse ++ ts, e) ∧
      Scans s ts e := by
  induction n generalizing s tokens with
  | zero => exact absurd hn (Nat.not_lt_zero _)
  | succ n ih =>
      rw [tokensWithin]
      rcases hnext : s.next with ⟨e | t, s'⟩
      · exact ⟨[], some e, by rw [List.append_nil], .fault hnext⟩
      · by_cases hk : t.kind = .finish
        · refine ⟨[t], none, ?_, .finish hnext hk⟩
          dsimp only
          rw [if_pos hk, List.reverse_cons]
        · have hlt := (next_ok hnext).length_lt hk
          obtain ⟨ts, e, heq, hscans⟩ := ih (t :: tokens) (s := s') (by omega)
          refine ⟨t :: ts, e, ?_, .token hnext hk hscans⟩
          dsimp only
          rw [if_neg hk, heq, List.reverse_cons, List.append_assoc]
          rfl

end Scanner

/-- The tokens of a source, through the end or up to the first lexical complaint. -/
def tokensOf (source : String) : List Token :=
  (Scanner.ofSource source).tokens.1

/-- The first lexical complaint about a source. -/
def faultOf? (source : String) : Option Complaint :=
  (Scanner.ofSource source).tokens.2

theorem tokensOf_scans (source : String) :
    Scans (Scanner.ofSource source) (tokensOf source) (faultOf? source) := by
  obtain ⟨ts, e, heq, hscans⟩ := Scanner.tokensWithin_scans []
    (Nat.lt_succ_self (Scanner.ofSource source).rest.length)
  have htokens : (Scanner.ofSource source).tokens = (ts, e) := heq
  rw [tokensOf, faultOf?, htokens]
  exact hscans

theorem Scans.eq_concat_finish {s : Scanner} {ts : List Token} (h : Scans s ts none) :
    ∃ (us : List Token) (eof : Token), ts = us ++ [eof] ∧ eof.kind = .finish := by
  generalize he : none = e at h
  induction h with
  | finish _ hk => exact ⟨[], _, rfl, hk⟩
  | token _ _ _ ih =>
      obtain ⟨us, eof, rfl, hk⟩ := ih he
      exact ⟨_ :: us, eof, rfl, hk⟩
  | fault => cases he

/-- Every token of a source has a location there. -/
theorem Scans.standsAt {source : String} {s : Scanner} {ts : List Token} {e : Option Complaint}
    (h : Scans s ts e) (hs : (Scanner.ofSource source).Advances s) {t : Token} (ht : t ∈ ts) :
    ∃ l, Location.of? source t.span.start = some l ∧ t.StandsAt source l := by
  have hone {s s' : Scanner} {t : Token} (hnext : s.next = (.ok t, s'))
      (hs : (Scanner.ofSource source).Advances s) :
      ∃ l, Location.of? source t.span.start = some l ∧ t.StandsAt source l := by
    obtain ⟨gap, hgap, hoffset, -, htext⟩ := (Scanner.next_ok hnext).placed
    obtain ⟨before, l, hsource, hbytes, hl, hafter⟩ := (hs.trans hgap).location
    rw [hoffset] at hl hbytes
    refine ⟨l, hl, before, s'.rest, ?_, hbytes, hafter⟩
    rw [hsource, htext, List.append_assoc]
  induction h with
  | finish hnext _ =>
      obtain rfl := List.mem_singleton.mp ht
      exact hone hnext hs
  | token hnext _ _ ih =>
      rcases List.mem_cons.mp ht with rfl | ht
      · exact hone hnext hs
      · exact ih (hs.trans (Scanner.next_ok hnext).advances) ht
  | fault => cases ht

/-- The complaint that ends the tokens of a source is lexical and stands where what it is about
begins. -/
theorem Scans.fault_split {source : String} {s : Scanner} {ts : List Token} {e : Complaint}
    (h : Scans s ts (some e)) (hs : (Scanner.ofSource source).Advances s) :
    ∃ cause before after, e.cause = .lexical cause ∧ source.toList = before ++ after ∧
      byteCount before = e.offset ∧ cause.opening <+: after := by
  generalize he : some e = fault at h
  induction h with
  | finish => cases he
  | token hnext _ _ ih => exact ih (hs.trans (Scanner.next_ok hnext).advances) he
  | fault hnext =>
      cases he
      obtain ⟨cause, hcause, s', hadv, hoffset, hopening⟩ := Scanner.next_error hnext
      obtain ⟨before, -, hsource, hbefore, -, -⟩ := (hs.trans hadv).location
      exact ⟨cause, before, s'.rest, hcause, hsource, hbefore.trans hoffset, hopening⟩

theorem Scans.fault_location {source : String} {s : Scanner} {ts : List Token} {e : Complaint}
    (h : Scans s ts (some e)) (hs : (Scanner.ofSource source).Advances s) :
    (∃ cause, e.cause = .lexical cause) ∧ ∃ l, Location.of? source e.offset = some l := by
  obtain ⟨cause, before, after, hcause, hsource, hoffset, -⟩ := h.fault_split hs
  obtain ⟨l, hl, -⟩ := Location.of?_byteCount hsource
  exact ⟨⟨cause, hcause⟩, l, hoffset ▸ hl⟩

/-! ## What lies ahead of a view -/

/-- The tokens from the current one of a view on, and the complaint that ends them. -/
inductive Ahead : View → List Token → Option Complaint → Prop
  | ended {v : View} : v.current.kind = .finish → Ahead v [v.current] none
  | last {v : View} :
      v.current.kind ≠ .finish → v.lookahead.kind = .finish → v.scanner.rest = [] →
      Ahead v [v.current, v.lookahead] none
  | more {v : View} {ts : List Token} {e : Option Complaint} :
      v.current.kind ≠ .finish → v.lookahead.kind ≠ .finish → Scans v.scanner ts e →
      Ahead v (v.current :: v.lookahead :: ts) e

/-- At the end of a source every call answers the end. -/
theorem Scanner.next_of_rest_nil {s : Scanner} (h : s.rest = []) :
    s.next = (.ok (.finish s.offset), s) := by
  obtain ⟨offset, rest⟩ := s
  obtain rfl : rest = [] := h
  rfl

namespace Ahead

variable {v v' : View} {ts us : List Token} {e : Option Complaint}

theorem of_scans {s : Scanner} (hk : v.current.kind ≠ .finish)
    (hnext : s.next = (.ok v.lookahead, v.scanner)) (h : Scans s ts e) :
    Ahead v (v.current :: ts) e := by
  rcases h.of_ok hnext with ⟨hfinish, rfl, rfl⟩ | ⟨hlook, us, rfl, hscans⟩
  · exact .last hk hfinish ((Scanner.next_ok hnext).finished hfinish)
  · exact .more hk hlook hscans

/-- Behind the current token stands another one, unless it is the end. -/
theorem exists_cons (h : Ahead v ts e) : ∃ us, ts = v.current :: us ∧ (e = none ∨ us ≠ []) := by
  cases h with
  | ended | last => exact ⟨_, rfl, .inl rfl⟩
  | more => exact ⟨_, rfl, .inr (List.cons_ne_nil _ _)⟩

theorem of_finish (h : Ahead v ts e) (hk : v.current.kind = .finish) :
    ts = [v.current] ∧ e = none := by
  cases h with
  | ended => exact ⟨rfl, rfl⟩
  | last hne | more hne => exact absurd hk hne

theorem next (h : Ahead v ts e) (hk : v.current.kind ≠ .finish) (hv : v.next = .ok v') :
    ∃ us, ts = v.current :: us ∧ Ahead v' us e := by
  unfold View.next at hv
  split at hv
  · next t s hnext =>
    cases hv
    cases h with
    | ended hfinish => exact absurd hfinish hk
    | last _ hfinish _ => exact ⟨_, rfl, .ended hfinish⟩
    | more _ hlook hscans =>
        exact ⟨_, rfl, of_scans (v := ⟨v.lookahead, t, s⟩) hlook hnext hscans⟩
  · cases hv

/-- The scanner complains only when the lookahead is the last token before the complaint. -/
theorem next_error {c : Complaint} (h : Ahead v ts e) (hk : v.current.kind ≠ .finish)
    (hv : v.next = .error c) : ts = [v.current, v.lookahead] ∧ e = some c := by
  unfold View.next at hv
  split at hv
  · cases hv
  · next hnext =>
    cases hv
    cases h with
    | ended hfinish => exact absurd hfinish hk
    | last _ _ hrest =>
        cases (Scanner.next_of_rest_nil hrest).symm.trans hnext
    | more _ _ hscans =>
        obtain ⟨rfl, rfl⟩ := hscans.of_error hnext
        exact ⟨rfl, rfl⟩

theorem passes (h : Ahead v ts e) (hpasses : v.Passes us v') :
    ∃ vs, ts = us ++ vs ∧ Ahead v' vs e := by
  induction hpasses generalizing ts with
  | refl => exact ⟨ts, rfl, h⟩
  | step hk hnext _ ih =>
      obtain ⟨us, rfl, hahead⟩ := h.next hk hnext
      obtain ⟨vs, rfl, hlast⟩ := ih hahead
      exact ⟨vs, rfl, hlast⟩

end Ahead

/-- A window on a source that has been primed: no token is before it, and its journal tells of the
two in view. -/
structure Window.Opened (source : String) (w : Window) : Prop where
  ready : w.Ready
  size_eq : w.size = byteCount source.toList
  previous : w.previous = none
  tells : w.Tells []

/-- Priming a window brings the first two tokens of a source into view, or it meets the complaint
before one of them. -/
theorem slide_ofSource {source : String} {ts : List Token} {e : Option Complaint}
    (h : Scans (Scanner.ofSource source) ts e) :
    (∃ w, slide (Window.ofSource source) = .ok () w ∧ w.Opened source ∧ Ahead w.view ts e) ∨
      ∃ c w, slide (Window.ofSource source) = .error c w ∧ e = some c ∧ ts.length < 2 := by
  rcases hfirst : (Scanner.ofSource source).next with ⟨c | first, s⟩
  · obtain ⟨rfl, rfl⟩ := h.of_error hfirst
    exact .inr ⟨c, _, slide_unprimed_error rfl hfirst, rfl, Nat.zero_lt_two⟩
  · have hscanned := Scanner.next_ok hfirst
    rcases hsecond : s.next with ⟨c | second, s'⟩
    · rcases h.of_ok hfirst with ⟨hfinish, -, -⟩ | ⟨-, us, rfl, hscans⟩
      · cases (Scanner.next_of_rest_nil (hscanned.finished hfinish)).symm.trans hsecond
      · obtain ⟨rfl, rfl⟩ := hscans.of_error hsecond
        exact .inr ⟨c, _, slide_prime_fault rfl hfirst hsecond, rfl, Nat.one_lt_two⟩
    · have hscanned' := Scanner.next_ok hsecond
      refine .inl ⟨_, slide_prime rfl hfirst hsecond, ⟨?_, rfl, rfl, ?_⟩, ?_⟩
      · have hsize := (hscanned.advances.trans hscanned'.advances).size_eq
        exact ⟨rfl, (Nat.zero_add _).symm.trans hsize.symm, hscanned.quoted, hscanned'.quoted⟩
      · exact Window.tells_prime rfl first second s'
      · rcases h.of_ok hfirst with ⟨hfinish, rfl, rfl⟩ | ⟨hk, us, rfl, hscans⟩
        · exact .ended hfinish
        · exact .of_scans hk hsecond hscans

/-- A window on a source that can be scanned is primed at its first tokens. -/
theorem exists_slide {source : String} (h : faultOf? source = none) :
    ∃ w, slide (Window.ofSource source) = .ok () w ∧ w.Opened source ∧
      Ahead w.view (tokensOf source) none := by
  have hscans := tokensOf_scans source
  rw [h] at hscans
  refine (slide_ofSource hscans).resolve_right ?_
  rintro ⟨_, _, _, hfault, _⟩
  cases hfault

/-! ## Answers -/

theorem isSource_eq : IsSource = Phrase.bind IsClass fun c =>
    (one .finish).bind fun _ => empty c := by
  ext ts c
  constructor
  · rintro ⟨hc, heof⟩
    exact bind_mk hc (one_bind_empty_iff.mpr ⟨_, rfl, heof, rfl⟩)
  · intro h
    obtain ⟨us, _, c, rfl, hc, h⟩ := h
    obtain ⟨eof, rfl, heof, rfl⟩ := one_bind_empty_iff.mp h
    exact .ended hc heof

theorem isSource_productive : Productive IsSource := by
  rw [isSource_eq]
  exact (classMembers_reads 0 fun _ => false).productive.bind fun c => .last .finish c

/-- What reading a source answers, given its tokens and the complaint that ends them. -/
inductive Answer (ts : List Token) (e : Option Complaint) : Except Complaint ClassTree → Prop
  | accepted {us : List Token} {eof : Token} {c : Name × List Member} :
      ts = us ++ [eof] → e = none → eof.kind = .finish → IsClass us c →
      (∀ d, IsClass us d → d = c) → Answer ts e (.ok (.ofMembers c.1 c.2))
  | misfit {us vs : List Token} {t : Token} {cause : GrammarCause} :
      ts = us ++ t :: vs → (e = none ∨ vs ≠ []) → Viable IsSource us →
      ¬Viable IsSource (us ++ [t]) → Answer ts e (.error ⟨.grammar cause, t.span.start⟩)
  | lexical {c : Complaint} :
      e = some c → Viable IsSource ts.dropLast → Answer ts e (.error c)

theorem Stuck.answer {v v' : View} {ts us : List Token} {e : Option Complaint} {c : Complaint}
    (hahead : Ahead v ts e) (hpasses : v.Passes us v') (h : Stuck IsSource us v' c) :
    Answer ts e (.error c) := by
  obtain ⟨vs, rfl, hlast⟩ := hahead.passes hpasses
  cases h with
  | lexical hk hnext hviable =>
      obtain ⟨rfl, rfl⟩ := hlast.next_error hk hnext
      refine .lexical rfl ?_
      simpa using hviable
  | grammar hviable hnot =>
      obtain ⟨ws, rfl, hbehind⟩ := hlast.exists_cons
      exact .misfit rfl hbehind hviable hnot

/-- The end of a class has to be the end of the source. -/
def classEnd (c : Name × List Member) : Production ClassTree := do
  if (← get).hasMore then expected "end-of-file after class"
  else return .ofMembers c.1 c.2

theorem expected_bind {α β : Type} (what : String) (q : α → Production β) :
    expected what >>= q = expected what := rfl

theorem classTree_eq {w : Window} (h : w.primed = false) :
    classTree w = (slide >>= fun _ => classMembers >>= classEnd) w := by
  simp only [classTree, classMembers, LawfulMonad.bind_assoc, pure_bind, expected_bind]
  rw [get_bind, h]
  rfl

theorem classEnd_answer {w : Window} {ts : List Token} {e : Option Complaint} (hw : w.Ready)
    (hahead : Ahead w.view ts e) :
    match (classMembers >>= classEnd) w with
    | .ok tree _ => Answer ts e (.ok tree)
    | .error c _ => Answer ts e (.error c) := by
  have hclass := (classMembers_reads (w.remaining + 1) fun _ => false).meets hw (Nat.lt_succ_self _)
    (.of_productive fun c => .last .finish c)
  unfold Meets at hclass
  generalize hr : classMembers w = r at hclass
  cases hclass with
  | error hpasses hstuck =>
      rw [bind_error hr]
      rw [← isSource_eq] at hstuck
      exact hstuck.answer hahead hpasses
  | @ok c w' us hmoves hc hall =>
      rw [bind_ok hr, classEnd, get_bind]
      by_cases hk : w'.current.kind = .finish
      · obtain ⟨vs, rfl, hlast⟩ := hahead.passes hmoves.passes
        obtain ⟨rfl, rfl⟩ := hlast.of_finish hk
        have hmore : ¬w'.hasMore = true := by simp [Window.hasMore, hk]
        rw [if_neg hmore]
        refine .accepted rfl rfl hk hc fun d hd => ?_
        have hboth := hall [w'.current] d rfl
          (bind_mk hd (one_bind_empty_iff.mpr ⟨_, rfl, hk, rfl⟩))
        obtain ⟨_, -, -, rfl⟩ := one_bind_empty_iff.mp hboth
        rfl
      · have hmore : w'.hasMore = true := by simp [Window.hasMore, hk]
        rw [if_pos hmore]
        have hstuck : Stuck IsSource us w'.view (w'.unexpected "end-of-file after class") := by
          rw [isSource_eq]
          refine .grammar (Viable.of_phrase hc (.last .finish c)) ?_
          rintro ⟨zs, d, hd⟩
          rw [List.append_assoc] at hd
          obtain ⟨t, hts, ht, -⟩ := one_bind_empty_iff.mp (hall _ d rfl hd)
          obtain ⟨rfl, -⟩ := List.cons.inj hts
          exact hk ht
        exact hstuck.answer hahead hmoves.passes

/-- Reading a source gives one of the three answers. -/
theorem readClass_answer (source : String) :
    Answer (tokensOf source) (faultOf? source) (readClass source).1 := by
  rw [readClass, classTree_eq rfl]
  rcases slide_ofSource (tokensOf_scans source) with
    ⟨w, hslide, hopened, hahead⟩ | ⟨c, w, hslide, he, hlength⟩
  · have hanswer := classEnd_answer hopened.ready hahead
    rw [bind_ok hslide]
    split <;> next h => rw [h] at hanswer; exact hanswer
  · rw [bind_error hslide]
    refine .lexical he ?_
    have hnil : (tokensOf source).dropLast = [] := by
      rw [← List.length_eq_zero_iff, List.length_dropLast]
      omega
    rw [hnil]
    exact isSource_productive

end JackCompiler
