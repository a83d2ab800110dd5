import JackCompiler.Proofs.Syntax.Scanning
import JackCompiler.Token.Window

/-!
# What a window sees

For the grammar a window is the token that it stands at, one token after it and a scanner for the
rest. This view is all that decides what is read next; the previous token only tells how the window
got there. Passing over tokens leads from a view to a view, and fewer tokens remain with every one.
The journal has no part in reading, but keeps up with it: it tells of the tokens that were passed and
of the two in view.

## Implementation notes

The end of a source is never passed.
-/

namespace JackCompiler

/-- What a window shows of the tokens from its current one on. -/
structure View where
  current : Token
  lookahead : Token
  scanner : Scanner

/-- What a window shows. -/
def Window.view (w : Window) : View :=
  ⟨w.current, w.lookahead, w.scanner⟩

namespace View

/-- The view one token further on. -/
def next (v : View) : Except Complaint View :=
  match v.scanner.next with
  | (.ok t, s) => .ok ⟨v.lookahead, t, s⟩
  | (.error e, _) => .error e

/-- A bound on the tokens still to come, the current one included. -/
def remaining (v : View) : Nat :=
  byteCount v.scanner.rest + (if v.current.kind = .finish then 0 else 1) +
    (if v.lookahead.kind = .finish then 0 else 1)

/-- The way from one view to another over the tokens between them. -/
inductive Passes : View → List Token → View → Prop
  | refl (v : View) : Passes v [] v
  | step {v v' v'' : View} {us : List Token} :
      v.current.kind ≠ .finish → v.next = .ok v' → Passes v' us v'' →
      Passes v (v.current :: us) v''

theorem Passes.trans {v v' v'' : View} {us vs : List Token} (h : Passes v us v')
    (h' : Passes v' vs v'') : Passes v (us ++ vs) v'' := by
  induction h with
  | refl => exact h'
  | step hk hn _ ih => exact .step hk hn (ih h')

/-- The tokens passed, and then those from the current one on, begin with the current token of the
view that was left. -/
theorem Passes.head? {v v' : View} {us ws : List Token} (h : Passes v us v')
    (hws : ws.head? = some v'.current) : (us ++ ws).head? = some v.current := by
  cases h with
  | refl => exact hws
  | step => rfl

theorem next_current {v v' : View} (h : v.next = .ok v') : v'.current = v.lookahead := by
  unfold next at h
  split at h
  · cases h
    rfl
  · cases h

/-- Past one token stands the lookahead. -/
theorem Passes.current {v v' : View} {t : Token} (h : Passes v [t] v') :
    v'.current = v.lookahead := by
  cases h with
  | step _ hnext hrest =>
      cases hrest
      exact next_current hnext

theorem next_remaining {v v' : View} (hk : v.current.kind ≠ .finish) (h : v.next = .ok v') :
    v'.remaining < v.remaining := by
  unfold next at h
  split at h
  · next t s hs =>
    have hscanned := Scanner.next_ok hs
    cases h
    unfold remaining
    dsimp only
    rw [if_neg hk]
    by_cases ht : t.kind = .finish
    · rw [if_pos ht, hscanned.finished ht, byteCount_nil]
      omega
    · have hshorter := hscanned.shorter ht
      rw [if_neg ht]
      omega
  · cases h

/-- Fewer tokens remain by at least the number of those passed. -/
theorem Passes.remaining {v v' : View} {us : List Token} (h : Passes v us v') :
    v'.remaining + us.length ≤ v.remaining := by
  induction h with
  | refl => exact Nat.le_refl _
  | step hk hn _ ih =>
      have hlt := next_remaining hk hn
      rw [List.length_cons]
      omega

end View

namespace Window

/-- A window that is primed on tokens of a source whose size it knows. -/
structure Ready (w : Window) : Prop where
  primed : w.primed = true
  size_eq : w.size = w.scanner.offset + byteCount w.scanner.rest
  current : w.current.Quoted
  lookahead : w.lookahead.Quoted

theorem Ready.remaining_eq {w : Window} (h : w.Ready) : w.remaining = w.view.remaining := by
  have hsize := h.size_eq
  unfold remaining View.remaining view
  dsimp only [TokenFeed.offset_scanner]
  omega

end Window

namespace Production

variable {α β S : Type} {p : ProductionOver S α} {q : α → ProductionOver S β} {w w' : Window S}

theorem bind_ok {a : α} (h : p w = .ok a w') : (p >>= q) w = q a w' := by
  change EStateM.bind p q w = _
  rw [EStateM.bind, h]

theorem bind_error {e : Complaint} (h : p w = .error e w') : (p >>= q) w = .error e w' := by
  change EStateM.bind p q w = _
  rw [EStateM.bind, h]

theorem get_bind (q : Window S → ProductionOver S β) (w : Window S) : (get >>= q) w = q w w := rfl

theorem get_if_pos {c : Window S → Bool} (h : c w = true) (p p' : ProductionOver S α) :
    (get >>= fun w => if c w then p else p') w = p w := by
  rw [get_bind, if_pos h]

theorem get_if_neg {c : Window S → Bool} (h : ¬c w = true) (p p' : ProductionOver S α) :
    (get >>= fun w => if c w then p else p') w = p' w := by
  rw [get_bind, if_neg h]

end Production

open Production

section Scan

variable {S : Type} [TokenFeed S] {w : Window S} {t : Token} {e : Complaint} {s : S}

theorem scan_ok (h : TokenFeed.next w.scanner = (.ok t, s)) :
    scan w = .ok t { w with scanner := s, journal := .scanned t :: w.journal } := by
  rw [scan, h]

theorem scan_error (h : TokenFeed.next w.scanner = (.error e, s)) :
    scan w = .error e { w with scanner := s } := by
  rw [scan, h]

end Scan

namespace Window

/-- A window that has slid by one token, given the token that came into view and where the scanner
stands behind it. -/
def shift {S : Type} (w : Window S) (t : Token) (s : S) : Window S :=
  { w with
    scanner := s
    previous := some w.current
    current := w.lookahead
    lookahead := t
    journal := .scanned t :: w.journal }

/-- A window that was primed with two tokens. -/
def prime {S : Type} (w : Window S) (t u : Token) (s : S) : Window S :=
  { w with
    scanner := s
    current := t
    lookahead := u
    primed := true
    journal := .scanned u :: .scanned t :: w.journal }

/-! ## The journal -/

/-- But for notes on what is being read, the journal of a window has the tokens that were passed and
the two in view after them, each once. -/
def Tells (w : Window) (passed : List Token) : Prop :=
  w.records.filter (fun r => r.level != .debug) =
    (passed ++ [w.current, w.lookahead]).map .scanned

variable {w : Window} {passed : List Token} {t u : Token} {s : Scanner}

theorem records_shift (w : Window) (t : Token) (s : Scanner) :
    (w.shift t s).records = w.records ++ [.scanned t] :=
  List.reverse_cons

theorem Tells.shift (h : w.Tells passed) (t : Token) (s : Scanner) :
    (w.shift t s).Tells (passed ++ [w.current]) := by
  have hscanned : [Record.scanned t].filter (fun r => r.level != .debug) = [.scanned t] := rfl
  rw [Tells, records_shift, List.filter_append, h, hscanned]
  simp [Window.shift]

theorem Tells.note (h : w.Tells passed) {r : Record} (hr : r.level = .debug) :
    Tells { w with journal := r :: w.journal } passed := by
  have hnote : [r].filter (fun r => r.level != .debug) = [] := by simp [hr]
  rw [Tells, records, List.reverse_cons, List.filter_append, hnote, List.append_nil]
  exact h

/-- A window whose journal was empty tells of the tokens that primed it. -/
theorem tells_prime (h : w.journal = []) (t u : Token) (s : Scanner) :
    (w.prime t u s).Tells [] := by
  simp [Tells, records, prime, h, Record.level]

end Window

section Slide

variable {S : Type} [TokenFeed S] {w : Window S} {t u : Token} {e : Complaint} {s s' : S}

theorem slide_primed (h : w.primed = true) :
    slide w = (scan >>= fun next => modify fun w =>
      { w with previous := some w.current, current := w.lookahead, lookahead := next }) w := by
  rw [slide, get_bind, if_pos h]

theorem slide_shift (h : w.primed = true) (hnext : TokenFeed.next w.scanner = (.ok t, s)) :
    slide w = .ok () (w.shift t s) := by
  rw [slide_primed h, bind_ok (scan_ok hnext)]
  rfl

/-- A complaint leaves the tokens of a primed window. -/
theorem slide_fault (h : w.primed = true) (hnext : TokenFeed.next w.scanner = (.error e, s)) :
    slide w = .error e { w with scanner := s } := by
  rw [slide_primed h, bind_error (scan_error hnext)]

theorem slide_unprimed (h : w.primed = false) (hfirst : TokenFeed.next w.scanner = (.ok t, s)) :
    slide w = (scan >>= fun second => modify fun (w : Window S) =>
      { w with lookahead := second, primed := true })
        { w with scanner := s, journal := .scanned t :: w.journal, current := t } := by
  have hnot : ¬w.primed = true := by simp [h]
  rw [slide, get_bind, if_neg hnot, bind_ok (scan_ok hfirst)]
  rfl

theorem slide_prime (h : w.primed = false) (hfirst : TokenFeed.next w.scanner = (.ok t, s))
    (hsecond : TokenFeed.next s = (.ok u, s')) : slide w = .ok () (w.prime t u s') := by
  rw [slide_unprimed h hfirst, bind_ok (scan_ok hsecond)]
  rfl

/-- A complaint in place of the first token leaves a window that is not primed as it is. -/
theorem slide_unprimed_error (h : w.primed = false) (hfirst : TokenFeed.next w.scanner = (.error e, s)) :
    slide w = .error e { w with scanner := s } := by
  have hnot : ¬w.primed = true := by simp [h]
  rw [slide, get_bind, if_neg hnot, bind_error (scan_error hfirst)]

/-- A complaint in place of the second token leaves the first one. -/
theorem slide_prime_fault (h : w.primed = false) (hfirst : TokenFeed.next w.scanner = (.ok t, s))
    (hsecond : TokenFeed.next s = (.error e, s')) : slide w =
      .error e { w with scanner := s', journal := .scanned t :: w.journal, current := t } := by
  rw [slide_unprimed h hfirst, bind_error (scan_error hsecond)]

end Slide

/-- Sliding moves the view of a window to the next one. -/
theorem slide_ok {w : Window} (hw : w.Ready) {v : View} (h : w.view.next = .ok v) :
    ∃ w', slide w = .ok () w' ∧ w'.view = v ∧ w'.Ready ∧ w'.previous = some w.current ∧
      ∀ passed, w.Tells passed → w'.Tells (passed ++ [w.current]) := by
  unfold View.next at h
  split at h
  · next t s hs =>
    have hscanned := Scanner.next_ok hs
    cases h
    refine ⟨w.shift t s, slide_shift hw.primed hs, rfl, ⟨hw.primed, ?_, ?_, ?_⟩, rfl,
      fun _ htells => htells.shift t s⟩
    · exact hw.size_eq.trans hscanned.advances.size_eq.symm
    · exact hw.lookahead
    · exact hscanned.quoted
  · cases h

/-- Where there is no next view, sliding complains as the scanner does. -/
theorem slide_error {w : Window} (hw : w.Ready) {e : Complaint} (h : w.view.next = .error e) :
    ∃ w', slide w = .error e w' := by
  unfold View.next at h
  split at h
  · cases h
  · next e s hs =>
    cases h
    exact ⟨_, slide_fault hw.primed hs⟩

end JackCompiler
