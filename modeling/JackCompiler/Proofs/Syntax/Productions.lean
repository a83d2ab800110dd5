import JackCompiler.Grammar.Repetition
import JackCompiler.Proofs.Syntax.Grammar
import JackCompiler.Proofs.Syntax.Phrases
import JackCompiler.Proofs.Syntax.Views

/-!
# Productions read phrases

A production reads a phrase if it is right whatever comes after the phrase. Where it succeeds, it
has passed over the tokens of a value of the phrase, its journal tells of them, and whoever reads the
whole list in another way agrees with it up to there. Where it complains, it stands at the first
token that no completion can contain, or at the last token that the scanner could bring into view.

## Implementation notes

Completeness is part of the same statement. If the tokens ahead begin with a phrase and a
continuation, then no beginning of them is hopeless, so the production does not complain about the
grammar, and what it read is a value that the continuation accepts.

Depth and repetition are bounded by the tokens that remain. A production may therefore be asked to
read its phrase only from windows with fewer tokens than a bound.
-/

namespace JackCompiler

open Phrase Production

variable {α β γ : Type}

namespace Window

/-- A window has moved over tokens to another one that is ready, and its journal tells of them. -/
structure Moves (w : Window) (us : List Token) (w' : Window) : Prop where
  passes : w.view.Passes us w'.view
  ready : w'.Ready
  previous : w'.previous = us.getLast?.or w.previous
  tells : ∀ passed, w.Tells passed → w'.Tells (passed ++ us)

theorem Moves.refl {w : Window} (h : w.Ready) : w.Moves [] w :=
  ⟨.refl _, h, rfl, fun _ htells => (List.append_nil _).symm ▸ htells⟩

theorem Moves.trans {w w' w'' : Window} {us vs : List Token} (h : w.Moves us w')
    (h' : w'.Moves vs w'') : w.Moves (us ++ vs) w'' := by
  refine ⟨h.passes.trans h'.passes, h'.ready, ?_, fun passed htells => ?_⟩
  · rw [h'.previous, h.previous, List.getLast?_append, Option.or_assoc]
  · rw [← List.append_assoc]
    exact h'.tells _ (h.tells passed htells)

theorem Moves.remaining {w w' : Window} {us : List Token} (hw : w.Ready) (h : w.Moves us w') :
    w'.remaining + us.length ≤ w.remaining := by
  rw [hw.remaining_eq, h.ready.remaining_eq]
  exact h.passes.remaining

end Window

/-- A complaint about the view after some tokens of a phrase. -/
inductive Stuck (L : Phrase γ) (us : List Token) (v : View) : Complaint → Prop
  | lexical {e : Complaint} :
      v.current.kind ≠ .finish → v.next = .error e → Viable L (us ++ [v.current]) → Stuck L us v e
  | grammar {cause : GrammarCause} :
      Viable L us → ¬Viable L (us ++ [v.current]) →
      Stuck L us v ⟨.grammar cause, v.current.span.start⟩

/-- A complaint about a later phrase is one about both, if the first phrase has been read rightly.
-/
theorem Stuck.after {L : Phrase α} {M : α → Phrase γ} {us vs : List Token} {v v' : View} {a : α}
    {e : Complaint} (ha : L us a) (hpasses : v.Passes vs v')
    (hall : ∀ ws c, ws.head? = some v.current → L.bind M (us ++ ws) c → M a ws c)
    (h : Stuck (M a) vs v' e) : Stuck (L.bind M) (us ++ vs) v' e := by
  cases h with
  | lexical hk hnext hviable =>
      refine .lexical hk hnext ?_
      rw [List.append_assoc]
      exact Viable.bind ha hviable
  | grammar hviable hnot =>
      refine .grammar (Viable.bind ha hviable) ?_
      rintro ⟨zs, c, hc⟩
      simp only [List.append_assoc] at hc
      refine hnot ⟨zs, c, ?_⟩
      rw [List.append_assoc]
      exact hall _ c (hpasses.head? rfl) hc

/-- What reading a phrase may end with at a window, given what comes after the phrase. -/
inductive Outcome (L : Phrase α) (K : α → Phrase γ) (w : Window) :
    EStateM.Result Complaint Window α → Prop
  | ok {a : α} {w' : Window} {us : List Token} :
      w.Moves us w' → L us a →
      (∀ ws c, ws.head? = some w'.current → L.bind K (us ++ ws) c → K a ws c) →
      Outcome L K w (.ok a w')
  | error {e : Complaint} {w' : Window} {us : List Token} {v : View} :
      w.view.Passes us v → Stuck (L.bind K) us v e → Outcome L K w (.error e w')

/-- At a window a production is right about a phrase and what comes after it. -/
def Meets (p : Production α) (w : Window) (L : Phrase α) (K : α → Phrase γ) : Prop :=
  Outcome L K w (p w)

/-- From every window with fewer tokens than a bound a production reads a phrase, whatever comes
after it that begins with none of certain kinds. -/
structure Reads (n : Nat) (p : Production α) (L : Phrase α) (go : Kind → Bool) : Prop where
  productive : Productive L
  meets : ∀ {w : Window} {γ : Type} {K : α → Phrase γ}, w.Ready → w.remaining < n → Follows go K →
    Meets p w L K

/-- A kind of token that a production may pass over: every one but the end of a source. -/
class Kind.Passable (kind : Kind) : Prop where
  ne_finish : kind ≠ .finish

instance (s : Symbol) : Kind.Passable (.symbol s) :=
  ⟨nofun⟩

instance (k : Keyword) : Kind.Passable (.keyword k) :=
  ⟨nofun⟩

instance : Kind.Passable .identifier :=
  ⟨nofun⟩

instance : Kind.Passable .number :=
  ⟨nofun⟩

instance : Kind.Passable .text :=
  ⟨nofun⟩

theorem Kind.Passable.of_eq {k kind : Kind} [kind.Passable] (h : k = kind) : k ≠ .finish :=
  ne_of_eq_of_ne h Kind.Passable.ne_finish

section Rules

variable {p : Production α} {q : α → Production β} {w : Window} {L L' : Phrase α}
  {M : α → Phrase β} {K : β → Phrase γ}

theorem Meets.of_eq {p' : Production α} {K : α → Phrase γ} (h : Meets p' w L K)
    (heq : p w = p' w) : Meets p w L K := by
  rw [Meets, heq]
  exact h

/-- Reading one phrase after the other. -/
theorem Meets.bind (hp : Meets p w L fun a => (M a).bind K)
    (hq : ∀ a us w', w.Moves us w' → L us a → Meets (q a) w' (M a) K) :
    Meets (p >>= q) w (L.bind M) K := by
  unfold Meets at hp ⊢
  generalize hr : p w = r at hp
  cases hp with
  | error hpasses hstuck =>
      rw [bind_error hr]
      exact .error hpasses (by rwa [bind_assoc])
  | @ok a w' us hmoves ha hall =>
      rw [bind_ok hr]
      have hb := hq a us w' hmoves ha
      unfold Meets at hb
      generalize q a w' = r' at hb
      cases hb with
      | @ok b w'' vs hmoves' hb hall' =>
          refine .ok (hmoves.trans hmoves') ⟨us, vs, a, rfl, ha, hb⟩ fun ws c hws hc => ?_
          rw [bind_assoc, List.append_assoc] at hc
          exact hall' ws c hws (hall _ c (hmoves'.passes.head? hws) hc)
      | @error e w'' vs v hpasses hstuck =>
          refine .error (hmoves.passes.trans hpasses) ?_
          rw [bind_assoc]
          exact hstuck.after ha hpasses hall

/-- It is enough to be right about a part of a phrase to which the current token leads. -/
theorem Meets.narrow {K : α → Phrase γ} (hsub : ∀ us a, L' us a → L us a)
    (hlead : ∀ zs c, zs.head? = some w.current → L.bind K zs c → L'.bind K zs c)
    (h : Meets p w L' K) : Meets p w L K := by
  have hviable : ∀ {us}, Viable (L'.bind K) us → Viable (L.bind K) us := by
    rintro us ⟨zs, c, vs, ws, a, hzs, ha, hc⟩
    exact ⟨zs, c, vs, ws, a, hzs, hsub vs a ha, hc⟩
  unfold Meets at h ⊢
  generalize p w = r at h ⊢
  cases h with
  | ok hmoves ha hall =>
      refine .ok hmoves (hsub _ _ ha) fun ws c hws hc => ?_
      exact hall ws c hws (hlead _ c (hmoves.passes.head? hws) hc)
  | error hpasses hstuck =>
      refine .error hpasses ?_
      cases hstuck with
      | lexical hk hnext hus => exact .lexical hk hnext (hviable hus)
      | grammar hus hnot =>
          refine .grammar (hviable hus) ?_
          rintro ⟨zs, c, hc⟩
          simp only [List.append_assoc] at hc
          refine hnot ⟨zs, c, ?_⟩
          rw [List.append_assoc]
          exact hlead _ c (hpasses.head? rfl) hc

/-- Where a phrase is never empty, its lists that begin with the current token are enough. -/
theorem Meets.restrict {K : α → Phrase γ} {first : Kind → Bool} (hfirst : Begins first L)
    (hsub : ∀ us a, L' us a → L us a)
    (hlead : ∀ us a, L (w.current :: us) a → L' (w.current :: us) a) (h : Meets p w L' K) :
    Meets p w L K := by
  apply h.narrow hsub
  rintro _ c hzs ⟨vs, ws, a, rfl, ha, hc⟩
  obtain ⟨t, us, rfl, -⟩ := hfirst vs a ha
  obtain rfl : t = w.current := by simpa using hzs
  exact ⟨_, ws, a, rfl, hlead us a ha, hc⟩

/-- Lists that cannot begin with the current token do not count. -/
theorem Meets.drop {N : Phrase α} {K : α → Phrase γ} {first : Kind → Bool} (hN : Begins first N)
    (hk : first w.current.kind = false) (hsub : ∀ us a, L' us a → L us a)
    (hcases : ∀ us a, L us a → L' us a ∨ N us a) (h : Meets p w L' K) : Meets p w L K := by
  apply h.narrow hsub
  rintro zs c hzs ⟨vs, ws, a, rfl, ha, hc⟩
  rcases hcases vs a ha with ha | ha
  · exact ⟨vs, ws, a, rfl, ha, hc⟩
  · obtain ⟨t, us, rfl, ht⟩ := hN _ _ ha
    obtain rfl : t = w.current := by simpa using hzs
    rw [hk] at ht
    cases ht

/-- The empty list does not count where the current token is taken for more. -/
theorem Meets.drop_nil {K : α → Phrase γ} {go : Kind → Bool} (hK : Follows go K)
    (hk : go w.current.kind = true) (hsub : ∀ us a, L' us a → L us a)
    (hcases : ∀ us a, L us a → L' us a ∨ us = []) (h : Meets p w L' K) : Meets p w L K := by
  apply h.narrow hsub
  rintro zs c hzs ⟨vs, ws, a, rfl, ha, hc⟩
  rcases hcases vs a ha with ha | rfl
  · exact ⟨vs, ws, a, rfl, ha, hc⟩
  · obtain ⟨ts, rfl⟩ : ∃ ts, ws = w.current :: ts := List.head?_eq_some_iff.mp hzs
    rw [hK.stops _ _ _ _ hc] at hk
    cases hk

/-- Reading nothing. -/
theorem Meets.pure {K : α → Phrase γ} (hw : w.Ready) (a : α) :
    Meets (Pure.pure a) w (empty a) K := by
  refine .ok (.refl hw) ⟨rfl, rfl⟩ fun ws c _ hc => ?_
  rwa [empty_bind] at hc

/-- Complaining about a token that nothing can begin with. -/
theorem Meets.complain {K : α → Phrase γ} {what : String} (hL : Productive L)
    (hK : ∀ a, Productive (K a))
    (hnot : ∀ zs c, zs.head? = some w.current → ¬L.bind K zs c) :
    Meets (expected what) w L K := by
  refine .error (.refl _) (.grammar (hL.bind hK) ?_)
  rintro ⟨zs, c, hc⟩
  exact hnot _ c rfl hc

theorem Meets.complain_of_begins {K : α → Phrase γ} {first : Kind → Bool} {what : String}
    (hfirst : Begins first L) (hk : first w.current.kind = false) (hL : Productive L)
    (hK : ∀ a, Productive (K a)) : Meets (expected what) w L K := by
  apply Meets.complain hL hK
  intro zs c hzs hc
  have hbegins : Begins first (L.bind K) := hfirst.bind
  obtain ⟨t, vs, rfl, ht⟩ := hbegins _ _ hc
  obtain rfl : t = w.current := by simpa using hzs
  rw [hk] at ht
  cases ht

/-- Passing over the current token. -/
theorem Meets.slide {K : Unit → Phrase γ} (hw : w.Ready) (hk : w.current.kind ≠ .finish)
    (hK : ∀ u, Productive (K u)) : Meets slide w (exactly w.current ()) K := by
  unfold Meets
  rcases hv : w.view.next with e | v
  · obtain ⟨w', hslide⟩ := slide_error hw hv
    rw [hslide]
    refine .error (.refl _) (.lexical hk hv ?_)
    exact Viable.of_phrase ⟨rfl, rfl⟩ (hK ())
  · obtain ⟨w', hslide, rfl, hready, hprevious, htells⟩ := slide_ok hw hv
    rw [hslide]
    refine .ok ⟨.step hk hv (.refl _), hready, hprevious, htells⟩ ⟨rfl, rfl⟩ fun ws c _ hc => ?_
    obtain ⟨vs, hvs, hc⟩ := exactly_bind_iff.mp hc
    obtain rfl := (List.cons.inj hvs).2
    exact hc

/-- Passing over the current token for the sake of a value. -/
theorem Meets.slide_pure {K : α → Phrase γ} (hw : w.Ready) (hk : w.current.kind ≠ .finish) (a : α)
    (hK : ∀ a, Productive (K a)) :
    Meets (JackCompiler.slide >>= fun _ => Pure.pure a) w (exactly w.current a) K := by
  rw [← exactly_bind_empty w.current () a]
  apply (Meets.slide hw hk fun _ => (Productive.empty a).bind hK).bind
  exact fun _ _ _ hmoves _ => Meets.pure hmoves.ready a

/-- Passing over a token of a kind before another phrase. -/
theorem Meets.slide_bind {kind : Kind} [kind.Passable] {r : Production β} {N : Phrase β}
    (hw : w.Ready) (hk : w.current.kind = kind) (hN : Productive N) (hK : ∀ b, Productive (K b))
    (hr : ∀ w', w.Moves [w.current] w' → Meets r w' N K) :
    Meets (JackCompiler.slide >>= fun _ => r) w ((one kind).bind fun _ => N) K := by
  have hboth : Meets (JackCompiler.slide >>= fun _ => r) w
      ((exactly w.current ()).bind fun _ => N) K := by
    apply (Meets.slide hw (Kind.Passable.of_eq hk) fun _ => hN.bind hK).bind
    rintro _ us w' hmoves ⟨rfl, -⟩
    exact hr w' hmoves
  refine Meets.restrict (Begins.one kind).bind ?_ ?_ hboth
  · intro us b h
    obtain ⟨vs, rfl, hb⟩ := exactly_bind_iff.mp h
    exact one_bind_iff.mpr ⟨_, vs, rfl, hk, hb⟩
  · intro us b h
    obtain ⟨t, vs, hvs, -, hb⟩ := one_bind_iff.mp h
    obtain ⟨rfl, rfl⟩ := List.cons.inj hvs
    exact exactly_bind_iff.mpr ⟨us, rfl, hb⟩

end Rules

/-! ## Sequences -/

section Sequences

variable {n m : Nat} {p : Production α} {q : α → Production β} {L L' : Phrase α}
  {M : α → Phrase β} {go go' : Kind → Bool}

theorem Reads.weaken (h : Reads m p L go) (hle : n ≤ m) : Reads n p L go :=
  ⟨h.productive, fun hw hn => h.meets hw (Nat.lt_of_lt_of_le hn hle)⟩

theorem Reads.mono (h : Reads n p L go) (hle : ∀ k, go k = true → go' k = true) :
    Reads n p L go' :=
  ⟨h.productive, fun hw hn hK => h.meets hw hn (hK.mono hle)⟩

/-- One production after the other. What the first one passes over may pay for a lower bound on the
second. -/
theorem Reads.bind_passing (hp : Reads n p L go') (hlen : ∀ us a, L us a → n ≤ m + us.length)
    (hq : ∀ a, Reads m (q a) (M a) go)
    (hfollow : ∀ {γ : Type} {K : β → Phrase γ}, Follows go K → Follows go' fun a => (M a).bind K) :
    Reads n (p >>= q) (L.bind M) go := by
  refine ⟨hp.productive.bind fun a => (hq a).productive, fun {w γ K} hw hn hK => ?_⟩
  apply Meets.bind (hp.meets hw hn (hfollow hK))
  intro a us w' hmoves ha
  have hremaining := hmoves.remaining hw
  have hlength := hlen us a ha
  exact (hq a).meets hmoves.ready (by omega) hK

theorem Reads.bind (hp : Reads n p L go') (hq : ∀ a, Reads n (q a) (M a) go)
    (hfollow : ∀ {γ : Type} {K : β → Phrase γ}, Follows go K → Follows go' fun a => (M a).bind K) :
    Reads n (p >>= q) (L.bind M) go :=
  hp.bind_passing (fun _ _ _ => Nat.le_add_right _ _) hq hfollow

/-- After a production that passes over a token the bound is one lower. -/
theorem Reads.bind_succ {first : Kind → Bool} (hp : Reads (n + 1) p L go')
    (hfirst : Begins first L) (hq : ∀ a, Reads n (q a) (M a) go)
    (hfollow : ∀ {γ : Type} {K : β → Phrase γ}, Follows go K → Follows go' fun a => (M a).bind K) :
    Reads (n + 1) (p >>= q) (L.bind M) go := by
  refine hp.bind_passing (fun us a ha => ?_) hq hfollow
  have hpos := List.length_pos_iff.mpr (hfirst.ne_nil ha)
  omega

theorem Reads.pure (n : Nat) (a : α) (go : Kind → Bool) : Reads n (Pure.pure a) (empty a) go :=
  ⟨.empty a, fun hw _ _ => Meets.pure hw a⟩

theorem Reads.bind_pure (h : Reads n p L go) (f : α → β) :
    Reads n (p >>= fun a => Pure.pure (f a)) (L.bind fun a => empty (f a)) go := by
  refine h.bind (fun a => Reads.pure n (f a) go) fun hK => ?_
  simp only [empty_bind]
  exact hK.comp f

theorem Reads.map (h : Reads n p L go) (f : α → β) :
    Reads n (f <$> p) (L.bind fun a => empty (f a)) go := by
  rw [map_eq_pure_bind]
  exact h.bind_pure f

/-- Taking a token of a kind. -/
theorem take_reads (n : Nat) (kind : Kind) [kind.Passable] :
    Reads n (take kind) (one kind) fun _ => false := by
  refine ⟨.one kind, fun {w γ K} hw _ hK => ?_⟩
  rw [take]
  by_cases hk : w.current.kind = kind
  · refine Meets.of_eq ?_ (congrFun (if_pos hk) w)
    refine Meets.restrict (Begins.one kind) ?_ ?_
      (Meets.slide_pure hw (Kind.Passable.of_eq hk) w.current hK.productive)
    · rintro us t ⟨rfl, rfl⟩
      exact ⟨rfl, hk⟩
    · rintro us t ⟨hus, -⟩
      obtain ⟨rfl, rfl⟩ := List.cons.inj hus
      exact ⟨rfl, rfl⟩
  · refine Meets.of_eq ?_ (congrFun (if_neg hk) w)
    apply Meets.complain (Productive.one kind) hK.productive
    rintro zs c hzs hc
    obtain ⟨t, vs, rfl, ht, -⟩ := one_bind_iff.mp hc
    obtain rfl : t = w.current := by simpa using hzs
    exact hk ht

theorem take_bind_of_kind {kind : Kind} {w : Window} (hk : w.current.kind = kind)
    (r : Token → Production β) :
    (take kind >>= r) w = (slide >>= fun _ => r w.current) w := by
  rw [take, LawfulMonad.bind_assoc, get_bind, if_pos hk, LawfulMonad.bind_assoc]
  simp only [pure_bind]

theorem isAt_iff {w : Window} {kind : Kind} : w.isAt kind = true ↔ w.current.kind = kind :=
  beq_iff_eq

theorem accept_bind_of_kind {kind : Kind} {w : Window} (hk : w.current.kind = kind)
    (r : Bool → Production β) : (accept kind >>= r) w = (slide >>= fun _ => r true) w := by
  rw [accept, LawfulMonad.bind_assoc, get_bind, if_pos (isAt_iff.mpr hk), LawfulMonad.bind_assoc]
  simp only [pure_bind]

theorem accept_bind_of_ne {kind : Kind} {w : Window} (hk : w.current.kind ≠ kind)
    (r : Bool → Production β) : (accept kind >>= r) w = r false w := by
  rw [accept, LawfulMonad.bind_assoc, get_bind, if_neg (mt isAt_iff.mp hk), pure_bind]

/-- Accepting a token of a kind is taking it where it is current. -/
theorem accept_bind_eq (kind : Kind) (r : Bool → Production β) :
    accept kind >>= r =
      get >>= fun w => if w.isAt kind then take kind >>= fun _ => r true else r false := by
  funext w
  rw [get_bind]
  by_cases hk : w.current.kind = kind
  · rw [if_pos (isAt_iff.mpr hk), accept_bind_of_kind hk, take_bind_of_kind hk]
  · rw [if_neg (mt isAt_iff.mp hk), accept_bind_of_ne hk]

/-- A token of a kind and then more. -/
theorem Reads.take_bind {kind : Kind} [kind.Passable] {r : Token → Production β}
    {N : Token → Phrase β} (hr : ∀ t, Reads n (r t) (N t) go) :
    Reads n (take kind >>= r) ((one kind).bind N) go :=
  (take_reads n kind).bind hr fun hK =>
    .of_productive fun t => (hr t).productive.bind hK.productive

theorem Reads.take_bind_succ {kind : Kind} [kind.Passable] {r : Token → Production β}
    {N : Token → Phrase β} (hr : ∀ t, Reads n (r t) (N t) go) :
    Reads (n + 1) (take kind >>= r) ((one kind).bind N) go :=
  (take_reads (n + 1) kind).bind_succ (Begins.one kind) hr fun hK =>
    .of_productive fun t => (hr t).productive.bind hK.productive

/-- A last token of a kind. -/
theorem Reads.last (n : Nat) (kind : Kind) [kind.Passable] (b : β) :
    Reads n (take kind >>= fun _ => Pure.pure b) ((one kind).bind fun _ => empty b) go :=
  Reads.take_bind fun _ => Reads.pure n b go

/-- A production before a token of a kind that it does not take for more. -/
theorem Reads.bind_begins {first : Kind → Bool} (hp : Reads n p L go')
    (hq : ∀ a, Reads n (q a) (M a) go) (hfirst : ∀ a, Begins first (M a))
    (hgo : ∀ k, first k = true → go' k = false) : Reads n (p >>= q) (L.bind M) go :=
  hp.bind hq fun hK => .of_begins (fun a => (hq a).productive) hfirst hK.productive hgo

/-- A production that takes nothing for more before anything. -/
theorem Reads.bind_any (hp : Reads n p L fun _ => false) (hq : ∀ a, Reads n (q a) (M a) go) :
    Reads n (p >>= q) (L.bind M) go :=
  hp.bind hq fun hK => .of_productive fun a => (hq a).productive.bind hK.productive

end Sequences

/-! ## Words and symbols that announce -/

section Announced

variable {κ : Type} {n : Nat} {code : Window → Option κ} {kind : κ → Kind} {N : κ → Phrase α}
  {rest : κ → Production α} {go : Kind → Bool}

/-- Pass over the current token for what it stands for, and read what it announces. -/
def announced (code : Window → Option κ) (what : String) (rest : κ → Production α) :
    Production α := do
  match code (← get) with
  | some c =>
      slide
      rest c
  | none => expected what

/-- A token of one of certain kinds and what it announces. -/
def announcedPhrase (kind : κ → Kind) (N : κ → Phrase α) : Phrase α :=
  fun us a => ∃ c, (one (kind c)).bind (fun _ => N c) us a

theorem announcedPhrase_iff {us : List Token} {a : α} :
    announcedPhrase kind N us a ↔ ∃ c t vs, us = t :: vs ∧ t.kind = kind c ∧ N c vs a := by
  simp only [announcedPhrase, one_bind_iff]

theorem announcedPhrase_begins {first : Kind → Bool} (hfirst : ∀ c, first (kind c) = true) :
    Begins first (announcedPhrase kind N) := by
  intro us a h
  obtain ⟨c, t, vs, rfl, hk, -⟩ := announcedPhrase_iff.mp h
  exact ⟨t, vs, rfl, hk ▸ hfirst c⟩

theorem announced_reads [∀ c, Kind.Passable (kind c)]
    (hcode : ∀ w c, code w = some c ↔ w.current.kind = kind c)
    (c : κ) (what : String) (hrest : ∀ c, Reads n (rest c) (N c) go) :
    Reads n (announced code what rest) (announcedPhrase kind N) go := by
  have hproductive : Productive (announcedPhrase kind N) := by
    obtain ⟨us, a, ha⟩ := (Productive.one (kind c)).bind fun _ => (hrest c).productive
    exact ⟨us, a, c, ha⟩
  refine ⟨hproductive, fun {w γ K} hw hn hK => ?_⟩
  cases hc : code w with
  | none =>
      refine Meets.of_eq ?_ (by rw [announced, get_bind, hc])
      apply Meets.complain hproductive hK.productive
      rintro zs b hzs ⟨us, vs, a, rfl, ha, -⟩
      obtain ⟨c', t, us, rfl, hk, -⟩ := announcedPhrase_iff.mp ha
      obtain rfl : t = w.current := by simpa using hzs
      rw [(hcode w c').mpr hk] at hc
      cases hc
  | some c =>
      have hk := (hcode w c).mp hc
      refine Meets.of_eq ?_ (by rw [announced, get_bind, hc])
      have hfirst : Begins (fun _ => true) (announcedPhrase kind N) :=
        announcedPhrase_begins fun _ => rfl
      refine Meets.restrict hfirst (fun us a h => ⟨c, h⟩) ?_
        (Meets.slide_bind hw hk (hrest c).productive hK.productive fun w' hmoves => ?_)
      · intro us a h
        obtain ⟨c', t, vs, hus, hk', h⟩ := announcedPhrase_iff.mp h
        obtain ⟨rfl, rfl⟩ := List.cons.inj hus
        obtain rfl := Option.some_inj.mp (((hcode w c').mpr hk').symm.trans hc)
        exact one_bind_mk hk h
      · have hremaining := hmoves.remaining hw
        exact (hrest c).meets hmoves.ready (by omega) hK

end Announced

/-! ## Repetition -/

section Repetition

variable {n : Nat} {P : Phrase α} {item : Production α} {more : Window → Bool}
  {first go : Kind → Bool}

theorem Phrase.Productive.repeated (P : Phrase α) : Productive (Repeated P) :=
  ⟨[], [], .nil⟩

/-- A list of items and more begins as an item or as what comes after the items. -/
theorem Phrase.Begins.repeated_bind {second : Kind → Bool} {M : List α → Phrase β}
    (hP : Begins first P) (hM : ∀ as, Begins second (M as)) :
    Begins (fun k => first k || second k) (Phrase.bind (Repeated P) M) := by
  rintro _ b ⟨us, vs, as, rfl, has, hb⟩
  cases has with
  | nil =>
      obtain ⟨t, ws, rfl, ht⟩ := hM _ _ _ hb
      exact ⟨t, ws, rfl, Bool.or_eq_true_iff.mpr (.inr ht)⟩
  | cons ha _ =>
      obtain ⟨t, ws, rfl, ht⟩ := hP _ _ ha
      exact ⟨t, _, rfl, Bool.or_eq_true_iff.mpr (.inl ht)⟩

/-- Before any number of items comes what may come before one of them and before what follows. -/
theorem Phrase.Follows.repeated {K : β → List α → Phrase γ} (hP : Begins first P)
    (hgo : ∀ k, first k = true → go k = false)
    (hK : ∀ b, Follows (fun k => first k || go k) (K b)) :
    Follows go fun b => Phrase.bind (Repeated P) (K b) := by
  refine ⟨fun b => (Productive.repeated P).bind (hK b).productive, ?_⟩
  rintro b t ws c ⟨us, vs, _, hus, has, hc⟩
  cases has with
  | nil =>
      obtain rfl : vs = t :: ws := hus.symm
      exact (Bool.or_eq_false_iff.mp ((hK b).stops _ _ _ _ hc)).2
  | cons ha _ =>
      obtain ⟨u, us', rfl, hu⟩ := hP _ _ ha
      obtain rfl := (List.cons.inj hus).1
      exact hgo _ hu

/-- Items so far, in reverse order, and then any number of items. -/
def Phrase.onto (P : Phrase α) (items : List α) : Phrase (List α) :=
  Phrase.bind (Repeated P) fun as => empty (items.reverse ++ as)

theorem Phrase.onto_bind (P : Phrase α) (items : List α) (K : List α → Phrase γ) :
    (P.onto items).bind K = Phrase.bind (Repeated P) fun as => K (items.reverse ++ as) := by
  simp [onto, Phrase.bind_assoc]

/-- One more item before the others still to come. -/
theorem Phrase.onto_of_item {items : List α} {us : List Token} {as : List α}
    (h : P.bind (fun a => P.onto (a :: items)) us as) : P.onto items us as := by
  obtain ⟨us, _, a, rfl, ha, vs, _, as, rfl, has, rfl, rfl⟩ := h
  exact ⟨us ++ vs, [], a :: as, by simp, .cons ha has, rfl, by simp⟩

/-- A token that begins an item is not the first one after the items. -/
theorem Phrase.onto_bind_item {items : List α} {K : List α → Phrase γ}
    (hK : Follows (fun k => first k || go k) K) {t : Token} (ht : first t.kind = true)
    {zs : List Token} {c : γ} (hzs : zs.head? = some t) (h : (P.onto items).bind K zs c) :
    (P.bind fun a => P.onto (a :: items)).bind K zs c := by
  rw [onto_bind] at h
  obtain ⟨_, ws, _, rfl, has, hc⟩ := h
  cases has with
  | nil =>
      obtain ⟨ts, rfl⟩ : ∃ ts, ws = t :: ts := List.head?_eq_some_iff.mp hzs
      have hstop := (Bool.or_eq_false_iff.mp (hK.stops _ _ _ _ hc)).1
      rw [ht] at hstop
      cases hstop
  | @cons us vs a as ha has =>
      simp only [Phrase.bind_assoc, onto_bind]
      refine ⟨us, vs ++ ws, a, List.append_assoc .., ha, vs, ws, as, rfl, has, ?_⟩
      simpa using hc

/-- Before a token that begins no item the items are all there. -/
theorem Phrase.onto_bind_stop (hP : Begins first P) {items : List α} {K : List α → Phrase γ}
    {t : Token} (ht : first t.kind = false) {zs : List Token} {c : γ} (hzs : zs.head? = some t)
    (h : (P.onto items).bind K zs c) : (empty items.reverse).bind K zs c := by
  rw [onto_bind] at h
  obtain ⟨_, ws, _, rfl, has, hc⟩ := h
  cases has with
  | nil =>
      rw [empty_bind]
      simpa using hc
  | cons ha _ =>
      obtain ⟨u, us, rfl, hu⟩ := hP _ _ ha
      obtain rfl : u = t := by simpa using hzs
      rw [ht] at hu
      cases hu

/-- Within as many rounds as tokens remain, items are read until no more begin. -/
theorem repeatWithin_meets (hP : Begins first P) (hgo : ∀ k, first k = true → go k = false)
    (hmore : ∀ w, more w = first w.current.kind)
    (hitem : ∀ {w : Window} {γ : Type} {K : α → Phrase γ}, w.Ready → w.remaining < n →
      more w = true → Follows go K → Meets item w P K)
    (rounds : Nat) (items : List α) {w : Window} (hw : w.Ready) (hn : w.remaining < n)
    (hrounds : w.remaining < rounds) {K : List α → Phrase γ}
    (hK : Follows (fun k => first k || go k) K) :
    Meets (repeatWithin more item rounds items) w (P.onto items) K := by
  induction rounds generalizing items w with
  | zero => exact absurd hrounds (Nat.not_lt_zero _)
  | succ rounds ih =>
      rw [repeatWithin]
      by_cases hmw : more w = true
      · have hround : Meets (item >>= fun a => repeatWithin more item rounds (a :: items)) w
            (P.bind fun a => P.onto (a :: items)) K := by
          have hfollow : Follows go fun a => (P.onto (a :: items)).bind K := by
            simp only [onto_bind]
            exact Follows.repeated hP hgo fun a => hK.comp _
          apply (hitem hw hn hmw hfollow).bind
          intro a us w' hmoves ha
          have hremaining := hmoves.remaining hw
          have hpos := List.length_pos_iff.mpr (hP.ne_nil ha)
          exact ih (a :: items) hmoves.ready (by omega) (by omega)
        apply Meets.of_eq _ (get_if_pos hmw _ _)
        rw [hmore] at hmw
        exact hround.narrow (fun _ _ => onto_of_item) fun _ _ => onto_bind_item hK hmw
      · have hstop : Meets (pure items.reverse) w (empty items.reverse) K := Meets.pure hw _
        apply Meets.of_eq _ (get_if_neg hmw _ _)
        rw [hmore, Bool.not_eq_true] at hmw
        refine hstop.narrow ?_ fun _ _ => onto_bind_stop hP hmw
        rintro us as ⟨rfl, rfl⟩
        exact ⟨[], [], [], rfl, .nil, rfl, (List.append_nil _).symm⟩

/-- Items for as long as one begins. -/
theorem repeatWhile_reads (hP : Begins first P) (hgo : ∀ k, first k = true → go k = false)
    (hmore : ∀ w, more w = first w.current.kind)
    (hitem : ∀ {w : Window} {γ : Type} {K : α → Phrase γ}, w.Ready → w.remaining < n →
      more w = true → Follows go K → Meets item w P K) :
    Reads n (repeatWhile more item) (Repeated P) fun k => first k || go k := by
  refine ⟨.repeated P, fun {w γ K} hw hn hK => ?_⟩
  have hrepeat := repeatWithin_meets hP hgo hmore hitem (w.remaining + 1) [] hw hn
    (Nat.lt_succ_self _) hK
  have hL : P.onto [] = Repeated P := by
    funext us as
    simp [onto, Phrase.bind, empty]
  rw [hL] at hrepeat
  exact hrepeat

/-- A comma and an item. -/
def Phrase.afterComma (P : Phrase α) : Phrase α :=
  (one (.symbol .comma)).bind fun _ => P

theorem separated_eq (P : Phrase α) : Separated P =
    P.bind fun a => Phrase.bind (Repeated P.afterComma) fun as => empty (a :: as) := by
  funext us as
  refine propext ⟨fun h => ?_, ?_⟩
  · induction h with
    | one ha => exact ⟨_, [], _, (List.append_nil _).symm, ha, [], [], [], rfl, .nil, rfl, rfl⟩
    | cons ha hcomma _ ih =>
        obtain ⟨vs, _, b, rfl, hb, ws, _, bs, rfl, hbs, rfl, rfl⟩ := ih
        refine ⟨_, _, _, rfl, ha, _, [], b :: bs, (List.append_nil _).symm, ?_, rfl, rfl⟩
        have hafter : P.afterComma (_ :: vs) b := one_bind_iff.mpr ⟨_, _, rfl, hcomma, hb⟩
        simpa using Repeated.cons hafter hbs
  · rintro ⟨us, _, a, rfl, ha, vs, _, as, rfl, has, rfl, rfl⟩
    induction has generalizing us a with
    | nil => simpa using Separated.one ha
    | cons hb _ ih =>
        obtain ⟨comma, ws, rfl, hcomma, hb⟩ := one_bind_iff.mp hb
        simpa using Separated.cons ha hcomma (ih ws _ hb)

/-- Items with commas between them. -/
theorem commaSeparated_reads (hitem : Reads n item P go)
    (hgo : go (.symbol .comma) = false) :
    Reads n (commaSeparated item) (Separated P) fun k => k == .symbol .comma || go k := by
  have hcomma : ∀ k, (k == Kind.symbol .comma) = true → go k = false :=
    fun k hk => eq_of_beq hk ▸ hgo
  have hafter : Begins (· == .symbol .comma) P.afterComma := (Begins.one _).bind
  have hothers : Reads n (repeatWhile (fun w => w.atSymbol .comma) (slide >>= fun _ => item))
      (Repeated P.afterComma) fun k => k == .symbol .comma || go k := by
    apply repeatWhile_reads hafter hcomma (fun _ => rfl)
    intro w _ _ hw hn hmore hK
    apply Meets.slide_bind hw (eq_of_beq hmore) hitem.productive hK.productive
    intro w' hmoves
    have hremaining := hmoves.remaining hw
    exact hitem.meets hmoves.ready (by omega) hK
  rw [separated_eq]
  apply hitem.bind (fun a => hothers.bind_pure (a :: ·))
  · intro γ K hK
    simp only [Phrase.bind_assoc, empty_bind]
    exact Follows.repeated hafter hcomma fun a => hK.comp (a :: ·)

/-- Read a phrase if the current token begins it, and nothing with a given value otherwise. -/
def optional (begins : Window → Bool) (p : Production α) (a : α) : Production α := do
  if begins (← get) then p else return a

/-- A phrase, or nothing with a given value. -/
def Phrase.orNothing (L : Phrase α) (a : α) : Phrase α :=
  fun us b => L us b ∨ us = [] ∧ b = a

theorem Phrase.Productive.orNothing (L : Phrase α) (a : α) : Productive (L.orNothing a) :=
  ⟨[], a, .inr ⟨rfl, rfl⟩⟩

theorem Phrase.orNothing_bind_iff {L : Phrase α} {a : α} {M : α → Phrase β} {us : List Token}
    {b : β} : (L.orNothing a).bind M us b ↔ L.bind M us b ∨ M a us b := by
  constructor
  · rintro ⟨vs, ws, a', rfl, ha | ⟨rfl, rfl⟩, hb⟩
    · exact .inl (bind_mk ha hb)
    · exact .inr hb
  · rintro (⟨vs, ws, a', rfl, ha, hb⟩ | hb)
    · exact bind_mk (.inl ha) hb
    · exact ⟨[], us, a, rfl, .inr ⟨rfl, rfl⟩, hb⟩

theorem optional_reads {p : Production α} {L : Phrase α} (begins : Window → Bool) (a : α)
    (hbegins : ∀ w, begins w = first w.current.kind) (hfirst : Begins first L)
    (hp : Reads n p L go) :
    Reads n (optional begins p a) (L.orNothing a) fun k => first k || go k := by
  refine ⟨.orNothing L a, fun {w γ K} hw hn hK => ?_⟩
  rw [optional]
  by_cases hwb : begins w = true
  · refine Meets.of_eq ?_ (get_if_pos hwb _ _)
    have hgo : Follows go K := hK.mono fun k hk => by rw [hk, Bool.or_true]
    refine Meets.drop_nil hK ?_ (fun us b => .inl) (fun us b h => h.imp_right And.left)
      (hp.meets hw hn hgo)
    rw [← hbegins, hwb, Bool.true_or]
  · refine Meets.of_eq ?_ (get_if_neg hwb _ _)
    refine Meets.drop hfirst ?_ (fun us b => .inr) (fun us b => Or.symm) (Meets.pure hw a)
    rw [← hbegins]
    exact Bool.eq_false_iff.mpr hwb

/-- A choice before more reading is a choice of how to go on. -/
theorem optional_bind (begins : Window → Bool) (p : Production α) (a : α) (q : α → Production β) :
    optional begins p a >>= q = get >>= fun w => if begins w then p >>= q else q a := by
  rw [optional, LawfulMonad.bind_assoc]
  congr 1
  funext w
  by_cases h : begins w = true
  · rw [if_pos h, if_pos h]
  · rw [if_neg h, if_neg h, pure_bind]

theorem optional_not_bind (ends : Window → Bool) (p : Production α) (a : α)
    (q : α → Production β) :
    optional (fun w => !ends w) p a >>= q = get >>= fun w => if ends w then q a else p >>= q := by
  rw [optional_bind]
  congr 1
  funext w
  cases ends w <;> rfl

theorem parenthesised_eq (item : Production α) :
    parenthesised item = (take (.symbol .leftParen) >>= fun _ =>
      optional (fun w => !w.atSymbol .rightParen) (commaSeparated item) [] >>= fun items =>
        take (.symbol .rightParen) >>= fun _ => pure items) := by
  simp only [parenthesised, optional_not_bind, pure_bind]

theorem parenthesisedPhrase_eq (P : Phrase α) :
    Parenthesised P = (one (.symbol .leftParen)).bind fun _ =>
      (Phrase.orNothing (Separated P) []).bind fun as =>
        (one (.symbol .rightParen)).bind fun _ => empty as := by
  ext us as
  constructor
  · rintro (⟨hl, hr⟩ | ⟨hl, has, hr⟩)
    · exact one_bind_iff.mpr ⟨_, _, rfl, hl, [], _, [], rfl, .inr ⟨rfl, rfl⟩,
        one_bind_iff.mpr ⟨_, [], rfl, hr, rfl, rfl⟩⟩
    · exact one_bind_iff.mpr ⟨_, _, rfl, hl, _, _, _, rfl, .inl has,
        one_bind_iff.mpr ⟨_, [], rfl, hr, rfl, rfl⟩⟩
  · intro h
    obtain ⟨l, _, rfl, hl, vs, _, _, rfl, has, h⟩ := one_bind_iff.mp h
    obtain ⟨r, _, rfl, hr, rfl, rfl⟩ := one_bind_iff.mp h
    rcases has with has | ⟨rfl, rfl⟩
    · exact .some hl has hr
    · exact .none hl hr

/-- Items with commas between them in parentheses, possibly none. -/
theorem parenthesised_reads (hitem : Reads n item P go)
    (hfirst : Begins (· != .symbol .rightParen) P) (hcomma : go (.symbol .comma) = false)
    (hparen : go (.symbol .rightParen) = false) (go' : Kind → Bool) :
    Reads n (parenthesised item) (Parenthesised P) go' := by
  have hseparated : Begins (· != .symbol .rightParen) (Separated P) := by
    rw [separated_eq]
    exact hfirst.bind
  rw [parenthesised_eq, parenthesisedPhrase_eq]
  refine .take_bind fun _ => ?_
  have hitems := optional_reads (fun w => !w.atSymbol .rightParen) [] (fun _ => rfl)
    hseparated (commaSeparated_reads hitem hcomma)
  apply hitems.bind_begins (fun as => .last n _ as) (fun _ => (Begins.one _).bind)
  intro k hk
  rw [eq_of_beq hk, hparen]
  rfl

end Repetition

end JackCompiler
