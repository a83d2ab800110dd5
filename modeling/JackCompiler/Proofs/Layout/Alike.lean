import JackCompiler.Proofs.Relabelling.Trees
import JackCompiler.Proofs.Syntax.Sources

/-!
# Two windows on the same tokens

Two windows are alike if the tokens ahead of them are the same at different places. What a
production does depends on the kinds and texts of tokens only. So from alike windows it passes over
as many tokens, and reads the same at different places or complains of the same token.

## Implementation notes

The bound on depth and repetition counts bytes, which differ between the two windows. Both bounds
are enough for the tokens ahead, so the relation counts these, and the rules for repetition ask for
no more of the two bounds.
-/

namespace JackCompiler

open Production

variable {α β γ δ : Type}

/-- The relabelling that moves places and keeps names. -/
def Relabelling.moving (φ : Nat → Nat) : Relabelling :=
  ⟨id, φ⟩

/-- A token at its new place. -/
def Token.moved (φ : Nat → Nat) (t : Token) : Token :=
  { t with span := (Relabelling.moving φ).span t.span }

/-- Two windows have the same tokens ahead and behind, at different places. -/
structure Window.Alike (φ : Nat → Nat) (ts : List Token) (w w' : Window) : Prop where
  ready : w.Ready
  ready' : w'.Ready
  ahead : Ahead w.view ts none
  ahead' : Ahead w'.view (ts.map (Token.moved φ)) none
  previous : w'.previous = w.previous.map (Token.moved φ)

theorem Scans.length_le {s : Scanner} {ts : List Token} {e : Option Complaint} (h : Scans s ts e) :
    ts.length ≤ byteCount s.rest + 1 := by
  induction h with
  | finish => exact Nat.le_add_left _ _
  | token hnext hk _ ih =>
      have hshorter := (Scanner.next_ok hnext).shorter hk
      rw [List.length_cons]
      omega
  | fault => exact Nat.zero_le _

/-- The bound on the tokens still to come counts all of them but the end. -/
theorem Ahead.length_le {v : View} {ts : List Token} {e : Option Complaint} (h : Ahead v ts e) :
    ts.length ≤ v.remaining + 1 := by
  unfold View.remaining
  cases h with
  | ended => exact Nat.le_add_left _ _
  | last hk =>
      rw [if_neg hk, List.length_cons, List.length_singleton]
      omega
  | more hk hlook hscans =>
      have hlength := hscans.length_le
      rw [if_neg hk, if_neg hlook, List.length_cons, List.length_cons]
      omega

/-- Where nothing is wrong with the tokens ahead a window can slide. -/
theorem Ahead.exists_next {v : View} {ts : List Token} (h : Ahead v ts none)
    (hk : v.current.kind ≠ .finish) :
    ∃ v' us, v.next = .ok v' ∧ ts = v.current :: us ∧ Ahead v' us none := by
  cases hv : v.next with
  | error c => cases (h.next_error hk hv).2
  | ok v' =>
      obtain ⟨us, hts, hahead⟩ := h.next hk hv
      exact ⟨v', us, rfl, hts, hahead⟩

namespace Window.Alike

variable {φ : Nat → Nat} {ts : List Token} {w w' : Window}

theorem exists_cons (h : w.Alike φ ts w') :
    ∃ us, ts = w.current :: us ∧ w'.current = w.current.moved φ := by
  obtain ⟨us, rfl, -⟩ := h.ahead.exists_cons
  obtain ⟨us', hcons, -⟩ := h.ahead'.exists_cons
  exact ⟨us, rfl, (List.cons.inj hcons).1.symm⟩

theorem current (h : w.Alike φ ts w') : w'.current = w.current.moved φ :=
  h.exists_cons.choose_spec.2

theorem kind (h : w.Alike φ ts w') : w'.current.kind = w.current.kind := by
  rw [h.current]
  rfl

theorem text (h : w.Alike φ ts w') : w'.current.text = w.current.text := by
  rw [h.current]
  rfl

/-- Behind a token that is not the end both windows look at the same token. -/
theorem lookahead (h : w.Alike φ ts w') (hk : w.current.kind ≠ .finish) :
    w'.lookahead = w.lookahead.moved φ := by
  have hsecond {v : View} {ts : List Token} (hahead : Ahead v ts none)
      (hk : v.current.kind ≠ .finish) : ts[1]? = some v.lookahead := by
    cases hahead with
    | ended hfinish => exact absurd hfinish hk
    | last | more => rfl
  have hk' : w'.current.kind ≠ .finish := by rwa [h.kind]
  have hmoved := hsecond h.ahead' hk'
  rw [List.getElem?_map, hsecond h.ahead hk] at hmoved
  exact (Option.some_inj.mp hmoved).symm

theorem length_pos (h : w.Alike φ ts w') : 0 < ts.length := by
  obtain ⟨us, rfl, -⟩ := h.exists_cons
  exact Nat.succ_pos _

/-- Either window knows enough tokens to come. -/
theorem length_le (h : w.Alike φ ts w') :
    ts.length ≤ w.remaining + 1 ∧ ts.length ≤ w'.remaining + 1 := by
  have hlength := h.ahead.length_le
  have hlength' := h.ahead'.length_le
  rw [List.length_map] at hlength'
  rw [h.ready.remaining_eq, h.ready'.remaining_eq]
  exact ⟨hlength, hlength'⟩

/-- The two windows complain alike. -/
theorem unexpected (h : w.Alike φ ts w') (what : String) :
    w'.unexpected what = (Relabelling.moving φ).complaint (w.unexpected what) := by
  unfold Window.unexpected
  rw [h.current]
  rfl

end Window.Alike

/-! ## Productions -/

/-- Two results are alike: values, with alike windows that have a number of tokens fewer ahead, or
the same complaint. -/
inductive Matched (φ : Nat → Nat) (d n : Nat) (f : α → β) :
    EStateM.Result Complaint Window α → EStateM.Result Complaint Window β → Prop
  | ok {a : α} {w w' : Window} {ts : List Token} :
      w.Alike φ ts w' → ts.length + d ≤ n → Matched φ d n f (.ok a w) (.ok (f a) w')
  | error (c : Complaint) (w w' : Window) :
      Matched φ d n f (.error c w) (.error ((Relabelling.moving φ).complaint c) w')

/-- From alike windows with at most a number of tokens ahead two productions have alike results, and
pass over some tokens if they have not complained. -/
def Tracks (φ : Nat → Nat) (n d : Nat) (f : α → β) (p : Production α) (p' : Production β) : Prop :=
  ∀ ⦃ts : List Token⦄ ⦃w w' : Window⦄, w.Alike φ ts w' → ts.length ≤ n →
    Matched φ d ts.length f (p w) (p' w')

/-- Alike windows agree about a condition. -/
def Agrees (φ : Nat → Nat) (c : Window → Bool) : Prop :=
  ∀ ⦃ts : List Token⦄ ⦃w w' : Window⦄, w.Alike φ ts w' → c w' = c w

/-- Two productions have alike results from alike windows under a condition. -/
def TracksIf (c : Window → Bool) (φ : Nat → Nat) (n d : Nat) (f : α → β) (p : Production α)
    (p' : Production β) : Prop :=
  ∀ ⦃ts : List Token⦄ ⦃w w' : Window⦄, w.Alike φ ts w' → ts.length ≤ n → c w = true →
    Matched φ d ts.length f (p w) (p' w')

section Rules

variable {φ : Nat → Nat} {d e k m n : Nat} {f : α → β} {g : γ → δ} {p : Production α}
  {p' : Production β} {q : α → Production γ} {q' : β → Production δ} {w w' : Window}
  {ts : List Token}

theorem Matched.bind (hp : Matched φ d n f (p w) (p' w'))
    (hq : ∀ ⦃ts : List Token⦄ ⦃v v' : Window⦄ (a : α), v.Alike φ ts v' → ts.length + d ≤ n →
      Matched φ e ts.length g (q a v) (q' (f a) v')) :
    Matched φ (d + e) n g ((p >>= q) w) ((p' >>= q') w') := by
  generalize hr : p w = r at hp
  generalize hr' : p' w' = r' at hp
  cases hp with
  | error c v v' =>
      rw [bind_error hr, bind_error hr']
      exact .error c v v'
  | @ok a v v' us halike hlength =>
      rw [bind_ok hr, bind_ok hr']
      have hrest := hq a halike hlength
      generalize q a v = s at hrest ⊢
      generalize q' (f a) v' = s' at hrest ⊢
      cases hrest with
      | error c v v' => exact .error c v v'
      | ok halike' hlength' => exact .ok halike' (by omega)

theorem Matched.weaken {r : EStateM.Result Complaint Window α}
    {r' : EStateM.Result Complaint Window β} (h : Matched φ d n f r r') (he : e ≤ d) :
    Matched φ e n f r r' := by
  cases h with
  | error c v v' => exact .error c v v'
  | ok halike hlength => exact .ok halike (by omega)

theorem Tracks.weaken (h : Tracks φ m d f p p') (hn : n ≤ m) (he : e ≤ d) :
    Tracks φ n e f p p' :=
  fun _ _ _ halike hlength => (h halike (Nat.le_trans hlength hn)).weaken he

/-- There is always a token ahead. -/
theorem Tracks.zero (d : Nat) (f : α → β) (p : Production α) (p' : Production β) :
    Tracks φ 0 d f p p' :=
  fun _ _ _ halike hlength => absurd halike.length_pos (Nat.not_lt.mpr hlength)

/-- What the first production passes over pays for a lower bound on the second. -/
theorem Tracks.bind_of (hp : Tracks φ n d f p p') (hq : ∀ a, Tracks φ m e g (q a) (q' (f a)))
    (hn : n ≤ m + d) : Tracks φ n (d + e) g (p >>= q) (p' >>= q') := by
  intro ts w w' halike hlength
  exact (hp halike hlength).bind fun _ _ _ a halike' hlength' => hq a halike' (by omega)

theorem Tracks.bind (hp : Tracks φ n d f p p') (hq : ∀ a, Tracks φ n e g (q a) (q' (f a))) :
    Tracks φ n d g (p >>= q) (p' >>= q') :=
  (hp.bind_of hq (Nat.le_add_right n d)).weaken (Nat.le_refl n) (Nat.le_add_right d e)

/-- A second production that passes over tokens makes both pass over them. -/
theorem Tracks.bind_passing (hp : Tracks φ n d f p p')
    (hq : ∀ a, Tracks φ n e g (q a) (q' (f a))) : Tracks φ n e g (p >>= q) (p' >>= q') :=
  (hp.bind_of hq (Nat.le_add_right n d)).weaken (Nat.le_refl n) (Nat.le_add_left e d)

/-- After a production that passes over a token the bound is one lower. -/
theorem Tracks.bind_succ (hp : Tracks φ (n + 1) 1 f p p')
    (hq : ∀ a, Tracks φ n e g (q a) (q' (f a))) : Tracks φ (n + 1) 1 g (p >>= q) (p' >>= q') :=
  (hp.bind_of hq (Nat.le_refl _)).weaken (Nat.le_refl _) (Nat.le_add_right 1 e)

theorem Tracks.pure_of {a : α} {b : β} (n : Nat) (h : f a = b) :
    Tracks φ n 0 f (pure a) (pure b) := by
  rintro ts w w' halike -
  rw [← h]
  exact .ok halike (Nat.le_refl _)

theorem Tracks.pure (n : Nat) (f : α → β) (a : α) : Tracks φ n 0 f (pure a) (pure (f a)) :=
  Tracks.pure_of n rfl

theorem Tracks.map (hp : Tracks φ n d f p p') {i : α → γ} {i' : β → δ}
    (h : ∀ a, g (i a) = i' (f a)) :
    Tracks φ n d g (i <$> p) (i' <$> p') := by
  rw [map_eq_pure_bind, map_eq_pure_bind]
  exact hp.bind fun a => Tracks.pure_of n (h a)

theorem Tracks.expected (n d : Nat) (f : α → β) (what : String) :
    Tracks φ n d f (expected what) (expected what) := by
  intro ts w w' halike _
  have hexpected {ε : Type} (w : Window) :
      (JackCompiler.expected what : Production ε) w = .error (w.unexpected what) w := rfl
  rw [hexpected, hexpected, halike.unexpected]
  exact .error _ _ _

/-- Productions that look at the windows first. -/
theorem Tracks.get {q : Window → Production α} {q' : Window → Production β}
    (h : ∀ ⦃ts : List Token⦄ ⦃w w' : Window⦄, w.Alike φ ts w' → ts.length ≤ n →
      Matched φ d ts.length f (q w w) (q' w' w')) :
    Tracks φ n d f (get >>= q) (get >>= q') :=
  fun _ _ _ halike hlength => h halike hlength

/-- A condition on the kind of the current token. -/
theorem Agrees.of_kind {c : Window → Bool} {b : Kind → Bool} (h : ∀ w, c w = b w.current.kind) :
    Agrees φ c := by
  intro ts w w' halike
  rw [h, h, halike.kind]

theorem Agrees.isAt (kind : Kind) : Agrees φ fun w => w.isAt kind :=
  .of_kind (b := (· == kind)) fun _ => rfl

theorem Agrees.atKeyword (b : Keyword → Bool) : Agrees φ fun w => w.atKeyword b :=
  .of_kind (b := Kind.isKeyword b) fun _ => rfl

theorem Agrees.not {c : Window → Bool} (h : Agrees φ c) : Agrees φ fun w => !c w :=
  fun _ _ _ halike => congrArg Bool.not (h halike)

theorem Tracks.guarded {c : Window → Bool} (h : Tracks φ n d f p p') : TracksIf c φ n d f p p' :=
  fun _ _ _ halike hlength _ => h halike hlength

/-- Productions that choose by a condition that alike windows agree about. -/
theorem Tracks.ite {c : Window → Bool} {r : Production α} {r' : Production β} (hc : Agrees φ c)
    (hp : TracksIf c φ n d f p p') (hr : Tracks φ n d f r r') :
    Tracks φ n d f (MonadState.get >>= fun w => if c w then p else r)
      (MonadState.get >>= fun w => if c w then p' else r') := by
  refine Tracks.get fun ts w w' halike hlength => ?_
  rw [hc halike]
  cases hw : c w with
  | true => exact hp halike hlength hw
  | false => exact hr halike hlength

/-! ## Sliding -/

/-- Alike windows stay alike when they slide. -/
theorem Window.Alike.slide (h : w.Alike φ ts w') (hk : w.current.kind ≠ .finish) :
    Matched φ 1 ts.length id (slide w) (slide w') := by
  have hk' : w'.current.kind ≠ .finish := by rwa [h.kind]
  obtain ⟨v, us, hv, rfl, hahead⟩ := h.ahead.exists_next hk
  obtain ⟨v', us', hv', hcons, hahead'⟩ := h.ahead'.exists_next hk'
  obtain ⟨w₁, hslide, rfl, hready, hprevious, -⟩ := slide_ok h.ready hv
  obtain ⟨w₁', hslide', rfl, hready', hprevious', -⟩ := slide_ok h.ready' hv'
  obtain rfl := (List.cons.inj hcons).2
  rw [hslide, hslide']
  refine .ok (a := ()) ⟨hready, hready', hahead, hahead', ?_⟩ (Nat.le_refl _)
  rw [hprevious, hprevious', h.current]
  rfl

theorem Window.Alike.slide_bind {q : Production γ} {q' : Production δ} (h : w.Alike φ ts w')
    (hk : w.current.kind ≠ .finish) (hlength : ts.length ≤ n + 1) (hq : Tracks φ n e g q q') :
    Matched φ 1 ts.length g ((JackCompiler.slide >>= fun _ => q) w)
      ((JackCompiler.slide >>= fun _ => q') w') := by
  have hboth : Matched φ (1 + e) ts.length g ((JackCompiler.slide >>= fun _ => q) w)
      ((JackCompiler.slide >>= fun _ => q') w') :=
    (h.slide hk).bind fun _ _ _ _ halike hless => hq halike (by omega)
  exact hboth.weaken (Nat.le_add_right 1 e)

theorem take_tracks (n : Nat) (kind : Kind) [kind.Passable] :
    Tracks φ n 1 (Token.moved φ) (take kind) (take kind) := by
  refine Tracks.get fun ts w w' h hlength => ?_
  rw [h.current]
  by_cases hk : w.current.kind = kind
  · have hk' : (w.current.moved φ).kind = kind := hk
    rw [if_pos hk, if_pos hk']
    exact h.slide_bind (Kind.Passable.of_eq hk) (Nat.le_succ_of_le hlength)
      (Tracks.pure n (Token.moved φ) w.current)
  · have hk' : (w.current.moved φ).kind ≠ kind := hk
    rw [if_neg hk, if_neg hk']
    exact Tracks.expected n 1 _ _ h hlength

/-- A last token of a kind. -/
theorem Tracks.last {a : α} {b : β} (n : Nat) (kind : Kind) [kind.Passable] (h : f a = b) :
    Tracks φ n 1 f (take kind >>= fun _ => Pure.pure a) (take kind >>= fun _ => Pure.pure b) :=
  (take_tracks n kind).bind fun _ => Tracks.pure_of n h

theorem accept_tracks (n : Nat) (kind : Kind) [kind.Passable] :
    Tracks φ n 0 id (accept kind) (accept kind) := by
  refine Tracks.ite (.isAt kind) (fun ts w w' h hlength hat => ?_) (Tracks.pure n id false)
  have hslide := h.slide_bind (Kind.Passable.of_eq (isAt_iff.mp hat)) (Nat.le_succ_of_le hlength)
    (Tracks.pure n id true)
  exact hslide.weaken (Nat.zero_le 1)

/-- Productions that pass over the current token for what it stands for. -/
theorem announced_tracks {κ : Type} {code : Window → Option κ} {kind : κ → Kind}
    [∀ c, Kind.Passable (kind c)] (hcode : ∀ w c, code w = some c ↔ w.current.kind = kind c)
    (what : String) {rest : κ → Production α} {rest' : κ → Production β}
    (hrest : ∀ c, Tracks φ n e f (rest c) (rest' c)) :
    Tracks φ (n + 1) 1 f (announced code what rest) (announced code what rest') := by
  refine Tracks.get fun ts w w' h hlength => ?_
  have hsame : code w' = code w := by
    apply Option.ext
    intro c
    rw [hcode, hcode, h.kind]
  rw [hsame]
  cases hc : code w with
  | none => exact Tracks.expected (n + 1) 1 f what h hlength
  | some c => exact h.slide_bind (Kind.Passable.of_eq ((hcode w c).mp hc)) hlength (hrest c)

/-! ## Repetition -/

/-- Rounds that each pass over a token. Both bounds on them are enough for the tokens ahead. -/
theorem repeatWithin_tracks {more : Window → Bool} {item : Production α} {item' : Production β}
    (hmore : Agrees φ more) (hitem : TracksIf more φ n 1 f item item') {k k' : Nat} (hk : n ≤ k)
    (hk' : n ≤ k') (as : List α) :
    Tracks φ n 0 (List.map f) (repeatWithin more item k as)
      (repeatWithin more item' k' (as.map f)) := by
  induction n generalizing k k' as with
  | zero => exact Tracks.zero _ _ _ _
  | succ n ih =>
      obtain ⟨k, rfl⟩ := Nat.exists_eq_add_of_lt hk
      obtain ⟨k', rfl⟩ := Nat.exists_eq_add_of_lt hk'
      have hfewer {as : List α} := ih (fun _ _ _ h hlength => hitem h (Nat.le_succ_of_le hlength))
        (Nat.le_add_right n k) (Nat.le_add_right n k') as
      refine Tracks.ite hmore (fun ts w w' h hlength hw => ?_) ?_
      · refine Matched.weaken (d := 1 + 0) ?_ (Nat.zero_le _)
        exact (hitem h hlength hw).bind fun _ _ _ a halike hless => hfewer halike (by omega)
      · rw [← List.map_reverse]
        exact Tracks.pure _ _ _

theorem repeatWhile_tracks {more : Window → Bool} {item : Production α} {item' : Production β}
    (hmore : Agrees φ more) (hitem : TracksIf more φ n 1 f item item') :
    Tracks φ n 0 (List.map f) (repeatWhile more item) (repeatWhile more item') := by
  refine Tracks.get fun ts w w' h hlength => ?_
  have hbounds := h.length_le
  exact repeatWithin_tracks hmore (fun _ _ _ h hle => hitem h (Nat.le_trans hle hlength))
    hbounds.1 hbounds.2 [] h (Nat.le_refl _)

theorem commaSeparated_tracks {item : Production α} {item' : Production β}
    (hitem : Tracks φ n 1 f item item') :
    Tracks φ n 1 (List.map f) (commaSeparated item) (commaSeparated item') := by
  have hothers : Tracks φ n 0 (List.map f)
      (repeatWhile (fun w => w.atSymbol .comma) (slide >>= fun _ => item))
      (repeatWhile (fun w => w.atSymbol .comma) (slide >>= fun _ => item')) := by
    refine repeatWhile_tracks (.isAt _) fun ts w w' h hlength hcomma => ?_
    exact h.slide_bind (Kind.Passable.of_eq (isAt_iff.mp hcomma)) (Nat.le_succ_of_le hlength) hitem
  exact hitem.bind fun a => hothers.bind fun as => Tracks.pure n (List.map f) (a :: as)

theorem optional_tracks {begins : Window → Bool} (hbegins : Agrees φ begins)
    (hp : Tracks φ n d f p p') (a : α) :
    Tracks φ n 0 f (optional begins p a) (optional begins p' (f a)) :=
  Tracks.ite hbegins (hp.weaken (Nat.le_refl n) (Nat.zero_le d)).guarded (Tracks.pure n f a)

theorem parenthesised_tracks {item : Production α} {item' : Production β}
    (hitem : Tracks φ n 1 f item item') :
    Tracks φ (n + 1) 1 (List.map f) (parenthesised item) (parenthesised item') := by
  have hitems := optional_tracks (Agrees.isAt (.symbol .rightParen)).not
    (commaSeparated_tracks hitem) []
  rw [parenthesised_eq, parenthesised_eq]
  exact (take_tracks (n + 1) _).bind_succ fun _ => hitems.bind fun as => Tracks.last n _ rfl

/-! ## Depth -/

/-- Productions over inner ones, whose depth a number of bytes bounds. Every level of depth passes
over a token, so both bounds are enough for the tokens ahead. -/
theorem Tracks.of_depth {p : Nat → Production α} {p' : Nat → Production β}
    (hstep : ∀ {n k k' : Nat}, Tracks φ n 1 f (p k) (p' k') →
      Tracks φ (n + 1) 1 f (p (k + 1)) (p' (k' + 1))) (n : Nat) :
    Tracks φ n 1 f (MonadState.get >>= fun w => p (w.remaining + 1))
      (MonadState.get >>= fun w => p' (w.remaining + 1)) := by
  have hdepth (n k k' : Nat) : Tracks φ n 1 f (p (n + k)) (p' (n + k')) := by
    induction n with
    | zero => exact Tracks.zero _ _ _ _
    | succ n ih =>
        rw [Nat.succ_add, Nat.succ_add]
        exact hstep ih
  refine Tracks.get fun ts w w' h _ => ?_
  obtain ⟨hbound, hbound'⟩ := h.length_le
  obtain ⟨k, hk⟩ := Nat.exists_eq_add_of_le hbound
  obtain ⟨k', hk'⟩ := Nat.exists_eq_add_of_le hbound'
  rw [hk, hk']
  exact hdepth ts.length k k' h (Nat.le_refl _)

end Rules

end JackCompiler
