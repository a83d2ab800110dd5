import JackCompiler.Proofs.Lexis.Settling
import JackCompiler.Proofs.Syntax.Sources
import Mathlib.Data.List.Induction

/-!
# Requests to a window

A window can be asked to slide, to take a token of a kind and to accept one, in any order and also
after a complaint. From the request on that primed it, it shows the last three tokens that its
scanner has answered, or the only two. A request that slides it makes one call of the scanner; where
the answer is a complaint, the tokens stay. A request for another kind than the current one changes
nothing at all.

## Implementation notes

The journal of a window has a record of each token that was scanned, so it tells which answers of
the scanner a run has seen. The scanner alone does not: at the end of a source it answers without
moving.

Before it is primed a window has the end in the places of its tokens, whatever the source. That the
end stays current is therefore a fact about primed windows.
-/

namespace JackCompiler

open Production

namespace Scanner

variable {s s' : Scanner} {t : Token} {e : Complaint} {k : Nat}

theorem returned_concat_ok (h : (s.after k).next = (.ok t, s')) :
    s.returned (k + 1) = s.returned k ++ [t] := by
  rw [returned, calls_add, List.filterMap_append, calls_succ, h]
  rfl

theorem returned_concat_error (h : (s.after k).next = (.error e, s')) :
    s.returned (k + 1) = s.returned k := by
  rw [returned, calls_add, List.filterMap_append, calls_succ, h]
  exact List.append_nil _

/-- At the end of a source a scanner answers the end. -/
theorem kind_of_rest_eq_nil (h : s.rest = []) (hnext : s.next = (.ok t, s')) :
    t.kind = .finish := by
  rw [next_of_rest_nil h] at hnext
  cases hnext
  rfl

end Scanner

namespace Window

/-! ## Requests -/

/-- What a window can be asked for. -/
inductive Request where
  | advance
  | consume (kind : Kind)
  | consumeKeyword (k : Keyword)
  | accept (kind : Kind)
deriving DecidableEq, Repr

/-- The answer to a request: whether more tokens follow, the token that was taken, or whether one
was accepted. -/
inductive Reply where
  | more (follow : Bool)
  | taken (t : Token)
  | accepted (done : Bool)
deriving DecidableEq, Repr

namespace Request

/-- Do what a request asks for. -/
def perform : Request → Production Reply
  | advance => do
      slide
      return .more (← get).hasMore
  | consume kind => return .taken (← take kind)
  | consumeKeyword k => return .taken (← take (.keyword k))
  | accept kind => return .accepted (← JackCompiler.accept kind)

/-- The kind of token that a request is for. -/
def kind? : Request → Option Kind
  | advance => none
  | consume kind | accept kind => some kind
  | consumeKeyword k => some (.keyword k)

/-- A request slides a window whose current token is of the kind that the request is for. -/
def Slides (q : Request) (w : Window) : Prop :=
  ∀ kind ∈ q.kind?, w.current.kind = kind

/-- The answer to a request that slid a window. -/
def reply (w w' : Window) : Request → Reply
  | advance => .more w'.hasMore
  | consume _ | consumeKeyword _ => .taken w.current
  | accept _ => .accepted true

variable {q : Request} {w w' : Window} {e : Complaint}

/-- To do what a request asks for is to slide, where the request slides the window at all. -/
theorem perform_eq (hq : q.Slides w) :
    q.perform w = (slide >>= fun _ => get >>= fun w' => pure (q.reply w w')) w := by
  cases q with
  | advance => rfl
  | consume kind | consumeKeyword k => exact take_bind_of_kind (hq _ rfl) _
  | accept kind => exact accept_bind_of_kind (hq kind rfl) _

theorem perform_consumeKeyword (k : Keyword) :
    (consumeKeyword k).perform = (consume (.keyword k)).perform := rfl

/-- A token of another kind is not taken. -/
theorem consume_other {kind : Kind} (h : w.current.kind ≠ kind) :
    (consume kind).perform w = .error (w.unexpected kind.description) w := by
  have htake : take kind w = .error (w.unexpected kind.description) w := by
    rw [take, get_bind, if_neg h]
    rfl
  rw [perform, bind_error htake]

/-- A token of another kind is not accepted. -/
theorem accept_other {kind : Kind} (h : w.current.kind ≠ kind) :
    (accept kind).perform w = .ok (.accepted false) w :=
  accept_bind_of_ne h _

end Request

/-! ## Steps -/

/-- The window after a request, whether it was done or not. -/
def step (w : Window) (q : Request) : Window :=
  match q.perform w with
  | .ok _ w' | .error _ w' => w'

/-- The window after requests. -/
def afterAll (w : Window) (requests : List Request) : Window :=
  requests.foldl step w

theorem afterAll_append (w : Window) (before later : List Request) :
    w.afterAll (before ++ later) = (w.afterAll before).afterAll later :=
  List.foldl_append

theorem afterAll_concat (w : Window) (requests : List Request) (q : Request) :
    w.afterAll (requests ++ [q]) = (w.afterAll requests).step q :=
  w.afterAll_append requests [q]

variable {w w' : Window} {q : Request} {e : Complaint} {t : Token} {s : Scanner}

theorem step_ok (hq : q.Slides w) (h : slide w = .ok () w') : w.step q = w' := by
  rw [step, q.perform_eq hq, bind_ok h]
  rfl

theorem step_error (hq : q.Slides w) (h : slide w = .error e w') : w.step q = w' := by
  rw [step, q.perform_eq hq, bind_error h]

/-- A request for another kind leaves the window as it is. -/
theorem step_of_not_slides (hq : ¬q.Slides w) : w.step q = w := by
  have hother {kind : Kind} (hkind : q.kind? = some kind) : w.current.kind ≠ kind := by
    intro heq
    refine hq fun kind' hkind' => ?_
    obtain rfl := Option.some_inj.mp (hkind.symm.trans hkind')
    exact heq
  cases q with
  | advance => exact absurd (fun kind hkind => by cases hkind) hq
  | consume kind => rw [step, Request.consume_other (hother rfl)]
  | consumeKeyword k =>
      rw [step, Request.perform_consumeKeyword, Request.consume_other (hother rfl)]
  | accept kind => rw [step, Request.accept_other (hother rfl)]

/-! ## Windows that are primed -/

/-- A request to a primed window changes nothing, or it makes one call of the scanner, and the
window slides unless the answer is a complaint. -/
theorem step_cases (h : w.primed = true) (q : Request) : w.step q = w ∨
    (∃ t s, w.scanner.next = (.ok t, s) ∧ w.step q = w.shift t s) ∨
      ∃ e s, w.scanner.next = (.error e, s) ∧ w.step q = { w with scanner := s } := by
  by_cases hq : q.Slides w
  · rcases hnext : w.scanner.next with ⟨e | t, s⟩
    · exact .inr (.inr ⟨e, s, rfl, step_error hq (slide_fault h hnext)⟩)
    · exact .inr (.inl ⟨t, s, rfl, step_ok hq (slide_shift h hnext)⟩)
  · exact .inl (step_of_not_slides hq)

theorem step_primed (h : w.primed = true) (q : Request) : (w.step q).primed = true := by
  rcases step_cases h q with heq | ⟨t, s, -, heq⟩ | ⟨e, s, -, heq⟩ <;> rw [heq] <;> exact h

/-- A primed window shows the last tokens among the answers to a number of calls of the scanner that
another window had, and its journal tells which these tokens are. -/
structure Shows (w₀ : Window) (calls : Nat) (w : Window) : Prop where
  primed : w.primed = true
  scanner_eq : w.scanner = w₀.scanner.after calls
  records_eq : w.records = w₀.records ++ (w₀.scanner.returned calls).map .scanned
  last : (w₀.scanner.returned calls).reverse.take 3 =
    w.lookahead :: w.current :: w.previous.toList
  atEnd : w.lookahead.kind = .finish → w.scanner.rest = []
  ended : w.current.kind = .finish → w.lookahead.kind = .finish

namespace Shows

variable {w₀ : Window} {k : Nat}

theorem shift (h : Shows w₀ k w) (hnext : w.scanner.next = (.ok t, s)) :
    Shows w₀ (k + 1) (w.shift t s) where
  primed := h.primed
  scanner_eq := by
    rw [Scanner.after_succ', ← h.scanner_eq, hnext]
    rfl
  records_eq := by
    rw [records_shift, Scanner.returned_concat_ok (h.scanner_eq ▸ hnext), List.map_append,
      ← List.append_assoc, ← h.records_eq]
    rfl
  last := by
    have htwo : (w₀.scanner.returned k).reverse.take 2 = [w.lookahead, w.current] := by
      calc (w₀.scanner.returned k).reverse.take 2
        _ = ((w₀.scanner.returned k).reverse.take 3).take 2 := by rw [List.take_take]; rfl
        _ = [w.lookahead, w.current] := by rw [h.last]; rfl
    rw [Scanner.returned_concat_ok (h.scanner_eq ▸ hnext), List.reverse_concat, List.take_succ_cons,
      htwo]
    rfl
  atEnd := fun hk => (Scanner.next_finish hnext hk).2
  ended := fun hk => Scanner.kind_of_rest_eq_nil (h.atEnd hk) hnext

theorem fault (h : Shows w₀ k w) (hnext : w.scanner.next = (.error e, s)) :
    Shows w₀ (k + 1) { w with scanner := s } := by
  have hreturned := Scanner.returned_concat_error (h.scanner_eq ▸ hnext)
  refine ⟨h.primed, ?_, ?_, ?_, fun hk => ?_, h.ended⟩
  · rw [Scanner.after_succ', ← h.scanner_eq, hnext]
  · rw [hreturned]
    exact h.records_eq
  · rw [hreturned]
    exact h.last
  · rw [Scanner.next_of_rest_nil (h.atEnd hk)] at hnext
    cases hnext

theorem step (h : Shows w₀ k w) (q : Request) : ∃ k', Shows w₀ k' (w.step q) := by
  rcases step_cases h.primed q with heq | ⟨t, s, hnext, heq⟩ | ⟨e, s, hnext, heq⟩
  · exact ⟨k, heq.symm ▸ h⟩
  · exact ⟨k + 1, heq ▸ h.shift hnext⟩
  · exact ⟨k + 1, heq ▸ h.fault hnext⟩

theorem afterAll (h : Shows w₀ k w) (requests : List Request) :
    ∃ k', Shows w₀ k' (w.afterAll requests) := by
  induction requests generalizing w k with
  | nil => exact ⟨k, h⟩
  | cons q requests ih =>
      obtain ⟨k', hstep⟩ := h.step q
      exact ih hstep

/-- Once the end is current, it stays so. -/
theorem step_finish (h : Shows w₀ k w) (hk : w.current.kind = .finish) (q : Request) :
    (w.step q).current.kind = .finish := by
  rcases step_cases h.primed q with heq | ⟨t, s, -, heq⟩ | ⟨e, s, -, heq⟩
  · rwa [heq]
  · rw [heq]
    exact h.ended hk
  · rwa [heq]

theorem afterAll_finish (h : Shows w₀ k w) (hk : w.current.kind = .finish)
    (requests : List Request) : (w.afterAll requests).current.kind = .finish := by
  induction requests generalizing w k with
  | nil => exact hk
  | cons q requests ih =>
      obtain ⟨k', hstep⟩ := h.step q
      exact ih hstep (h.step_finish hk q)

/-- The previous token is the third one from the end. -/
theorem previous_eq (h : Shows w₀ k w) :
    w.previous = (w₀.scanner.returned k).reverse[2]? := by
  calc w.previous
    _ = (w.lookahead :: w.current :: w.previous.toList)[2]? := by cases w.previous <;> rfl
    _ = (w₀.scanner.returned k).reverse[2]? := by
      rw [← h.last, List.getElem?_take_of_lt (by decide)]

/-- Only two tokens have been answered while there is no previous one. -/
theorem previous_eq_none_iff (h : Shows w₀ k w) :
    w.previous = none ↔ (w₀.scanner.returned k).length = 2 := by
  have hlength := congrArg List.length h.last
  rw [List.length_take, List.length_reverse, List.length_cons, List.length_cons] at hlength
  cases hprevious : w.previous with
  | none =>
      rw [hprevious, Option.toList_none, List.length_nil] at hlength
      exact iff_of_true rfl (by omega)
  | some t =>
      rw [hprevious, Option.toList_some, List.length_singleton] at hlength
      exact iff_of_false (Option.some_ne_none t) (by omega)

end Shows

/-! ## Windows before they are primed -/

variable {s' : Scanner} {u : Token}

theorem Shows.prime (hprevious : w.previous = none) (hfirst : w.scanner.next = (.ok t, s))
    (hsecond : s.next = (.ok u, s')) : Shows w 2 (w.prime t u s') := by
  have hreturned : w.scanner.returned 2 = [t, u] := by
    rw [Scanner.returned_succ_ok hfirst, Scanner.returned_succ_ok hsecond]
    rfl
  refine ⟨rfl, ?_, ?_, ?_, fun hk => ?_, fun hk => ?_⟩
  · rw [Scanner.after_succ, hfirst, Scanner.after_succ, hsecond]
    rfl
  · rw [hreturned]
    simp [records, Window.prime]
  · rw [hreturned]
    simp [Window.prime, hprevious]
  · exact (Scanner.next_finish hsecond hk).2
  · exact Scanner.kind_of_rest_eq_nil (Scanner.next_finish hfirst hk).2 hsecond

/-- A request to a window that is not primed leaves it so, or it primes it with two calls of the
scanner. -/
theorem step_unprimed (h : w.primed = false) (hprevious : w.previous = none) (q : Request) :
    (w.step q).primed = false ∧ (w.step q).previous = none ∨ Shows w 2 (w.step q) := by
  by_cases hq : q.Slides w
  · rcases hfirst : w.scanner.next with ⟨e | t, s⟩
    · rw [step_error hq (slide_unprimed_error h hfirst)]
      exact .inl ⟨h, hprevious⟩
    · rcases hsecond : s.next with ⟨e | u, s'⟩
      · rw [step_error hq (slide_prime_fault h hfirst hsecond)]
        exact .inl ⟨h, hprevious⟩
      · rw [step_ok hq (slide_prime h hfirst hsecond)]
        exact .inr (.prime hprevious hfirst hsecond)
  · rw [step_of_not_slides hq]
    exact .inl ⟨h, hprevious⟩

variable {source : String} {requests : List Request} {w₀ : Window}

theorem previous_of_unprimed (h : ((ofSource source).afterAll requests).primed = false) :
    ((ofSource source).afterAll requests).previous = none := by
  induction requests using List.reverseRecOn with
  | nil => rfl
  | append_singleton requests q ih =>
      rw [afterAll_concat] at h ⊢
      cases hprimed : ((ofSource source).afterAll requests).primed with
      | true => exact absurd (step_primed hprimed q) (by rw [h]; decide)
      | false =>
          rcases step_unprimed hprimed (ih hprimed) q with ⟨-, hprevious⟩ | hshows
          · exact hprevious
          · exact absurd hshows.primed (by rw [h]; decide)

/-- Requests prime a window on a source with one of them, given the window before it. -/
def PrimedFrom (source : String) (requests : List Request) (w₀ : Window) : Prop :=
  ∃ before q later, requests = before ++ q :: later ∧ (ofSource source).afterAll before = w₀ ∧
    w₀.primed = false ∧ (w₀.step q).primed = true

theorem exists_primedFrom (h : ((ofSource source).afterAll requests).primed = true) :
    ∃ w₀, PrimedFrom source requests w₀ := by
  induction requests using List.reverseRecOn with
  | nil => cases h
  | append_singleton requests q ih =>
      cases hprimed : ((ofSource source).afterAll requests).primed with
      | true =>
          obtain ⟨w₀, before, q', later, rfl, hrest⟩ := ih hprimed
          exact ⟨w₀, before, q', later ++ [q], by simp, hrest⟩
      | false =>
          rw [afterAll_concat] at h
          exact ⟨_, requests, q, [], rfl, rfl, hprimed, h⟩

theorem PrimedFrom.shows (h : PrimedFrom source requests w₀) :
    ∃ k, Shows w₀ k ((ofSource source).afterAll requests) := by
  obtain ⟨before, q, later, rfl, rfl, hunprimed, hprimed⟩ := h
  rw [afterAll_append]
  rcases step_unprimed hunprimed (previous_of_unprimed hunprimed) q with ⟨hnot, -⟩ | hshows
  · exact absurd hprimed (by rw [hnot]; decide)
  · exact hshows.afterAll later

theorem hasMore_eq_false_iff : w.hasMore = false ↔ w.current.kind = .finish := by
  rw [hasMore, bne_eq_false_iff_eq]

/-- Whatever a window on a source is asked for, and however often it complains: from the request on
that primed it, it shows the last three tokens, or the only two, that the scanner has answered, and
its journal has just these. A request that slides the window makes one call of the scanner and moves
the tokens on, unless the answer is a complaint; then they stay. A request for another kind leaves
the window and its scanner as they are. No more tokens follow exactly if the end is current, which
it then stays; and the current token follows a dot exactly if the token two before the last is one.
-/
theorem requests_slide (source : String) (requests : List Request) :
    let w := (ofSource source).afterAll requests
    (w.hasMore = false ↔ w.current.kind = .finish) ∧
    (w.primed = true ↔ ∃ w₀, PrimedFrom source requests w₀) ∧
    ∀ w₀, PrimedFrom source requests w₀ →
      (∃ k, let ts := w₀.scanner.returned k
        w.scanner = w₀.scanner.after k ∧ w.records = w₀.records ++ ts.map .scanned ∧
        ts.reverse.take 3 = w.lookahead :: w.current :: w.previous.toList ∧
        (w.previous = none ↔ ts.length = 2) ∧
        (w.afterDot = true ↔ ∃ t, ts.reverse[2]? = some t ∧ t.kind = .symbol .dot)) ∧
      (∀ q : Request, q.Slides w →
        (∀ t s, w.scanner.next = (.ok t, s) →
          q.perform w = .ok (q.reply w (w.shift t s)) (w.shift t s)) ∧
        ∀ e s, w.scanner.next = (.error e, s) → q.perform w = .error e { w with scanner := s }) ∧
      (∀ kind, w.current.kind ≠ kind →
        (Request.consume kind).perform w = .error (w.unexpected kind.description) w ∧
        (Request.accept kind).perform w = .ok (.accepted false) w) ∧
      (∀ k, (Request.consumeKeyword k).perform = (Request.consume (.keyword k)).perform) ∧
      (w.hasMore = false → ∀ later, (w.afterAll later).hasMore = false) := by
  intro w
  refine ⟨hasMore_eq_false_iff, ⟨exists_primedFrom, fun ⟨w₀, h⟩ => ?_⟩, fun w₀ h => ?_⟩
  · obtain ⟨k, hshows⟩ := h.shows
    exact hshows.primed
  · obtain ⟨k, hshows⟩ := h.shows
    refine ⟨⟨k, hshows.scanner_eq, hshows.records_eq, hshows.last, hshows.previous_eq_none_iff, ?_⟩,
      fun q hq => ⟨fun t s hnext => ?_, fun e s hnext => ?_⟩, fun kind hk => ?_,
      Request.perform_consumeKeyword, fun hmore later => ?_⟩
    · rw [← hshows.previous_eq, afterDot, Option.any_eq_true]
      simp only [beq_iff_eq]
      exact Iff.rfl
    · rw [q.perform_eq hq, bind_ok (slide_shift hshows.primed hnext)]
      rfl
    · rw [q.perform_eq hq, bind_error (slide_fault hshows.primed hnext)]
    · exact ⟨Request.consume_other hk, Request.accept_other hk⟩
    · exact hasMore_eq_false_iff.mpr
        (hshows.afterAll_finish (hasMore_eq_false_iff.mp hmore) later)

/-- A malformed word is a complaint that leaves the tokens; its last character comes into view with
the next request. -/
example : let w := (ofSource "a.1x").afterAll [.advance, .advance, .advance]
    (w.previous.map Token.text, w.current.text, w.lookahead.text) = (some "a", ".", "x") := by
  decide +kernel

end Window

end JackCompiler
