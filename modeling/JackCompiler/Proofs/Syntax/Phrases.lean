import JackCompiler.Token.Basic

/-!
# Phrases

A phrase is a language with values: it says which lists of tokens mean which value. Phrases are put
one after the other as productions are, and what comes after a phrase is a continuation that may
depend on its value.

## Implementation notes

A production that reads as far as it can is right only if nothing that may come after it looks like
more of it. `Follows` is that condition on a continuation; it also asks that the continuation can be
completed whatever the value is, so that every beginning of a phrase is a beginning of the whole.
-/

namespace JackCompiler

/-- A language of lists of tokens with a value for each of its lists. -/
abbrev Phrase (α : Type) := List Token → α → Prop

namespace Phrase

variable {α β γ : Type}

/-- A single token of a kind. -/
def one (kind : Kind) : Phrase Token :=
  fun us t => us = [t] ∧ t.kind = kind

/-- A given token, with a given value. -/
def exactly (t : Token) (a : α) : Phrase α :=
  fun us b => us = [t] ∧ b = a

/-- Nothing, with a given value. -/
def empty (a : α) : Phrase α :=
  fun us b => us = [] ∧ b = a

/-- A phrase and then another one, which may depend on the value of the first. -/
def bind (L : Phrase α) (M : α → Phrase β) : Phrase β :=
  fun us b => ∃ vs ws a, us = vs ++ ws ∧ L vs a ∧ M a ws b

/-- A list of tokens that can be completed. -/
def Viable (L : Phrase α) (us : List Token) : Prop :=
  ∃ zs a, L (us ++ zs) a

/-- A phrase that is not empty as a language. -/
def Productive (L : Phrase α) : Prop :=
  ∃ us a, L us a

/-- Every list of a phrase has a first token, and it is of certain kinds. -/
def Begins (first : Kind → Bool) (L : Phrase α) : Prop :=
  ∀ us a, L us a → ∃ t vs, us = t :: vs ∧ first t.kind = true

/-- No continuation begins with a token that certain kinds would take for more, and every one can be
completed. -/
structure Follows (go : Kind → Bool) (K : α → Phrase γ) : Prop where
  productive : ∀ a, Productive (K a)
  stops : ∀ a t ws c, K a (t :: ws) c → go t.kind = false

theorem bind_assoc (L : Phrase α) (M : α → Phrase β) (K : β → Phrase γ) :
    (L.bind M).bind K = L.bind fun a => (M a).bind K := by
  ext us c
  constructor
  · rintro ⟨_, zs, b, rfl, ⟨vs, ws, a, rfl, ha, hb⟩, hc⟩
    exact ⟨vs, ws ++ zs, a, List.append_assoc .., ha, ws, zs, b, rfl, hb, hc⟩
  · rintro ⟨vs, _, a, rfl, ha, ws, zs, b, rfl, hb, hc⟩
    exact ⟨vs ++ ws, zs, b, (List.append_assoc ..).symm, ⟨vs, ws, a, rfl, ha, hb⟩, hc⟩

@[simp] theorem empty_bind (a : α) (M : α → Phrase β) : (empty a).bind M = M a := by
  funext us b
  refine propext ⟨?_, fun h => ⟨[], us, a, rfl, ⟨rfl, rfl⟩, h⟩⟩
  rintro ⟨vs, ws, _, rfl, ⟨rfl, rfl⟩, h⟩
  exact h

theorem bind_mk {L : Phrase α} {M : α → Phrase β} {us vs : List Token} {a : α} {b : β} (ha : L us a)
    (hb : M a vs b) : L.bind M (us ++ vs) b :=
  ⟨us, vs, a, rfl, ha, hb⟩

/-- The second phrase may be empty. -/
theorem bind_mk_nil {L : Phrase α} {M : α → Phrase β} {us : List Token} {a : α} {b : β}
    (ha : L us a) (hb : M a [] b) : L.bind M us b :=
  ⟨us, [], a, (List.append_nil us).symm, ha, hb⟩

theorem bind_empty_iff {L : Phrase α} {f : α → β} {us : List Token} {b : β} :
    L.bind (fun a => empty (f a)) us b ↔ ∃ a, L us a ∧ b = f a := by
  constructor
  · rintro ⟨vs, _, a, rfl, ha, rfl, rfl⟩
    exact ⟨a, by rwa [List.append_nil], rfl⟩
  · rintro ⟨a, ha, rfl⟩
    exact ⟨us, [], a, (List.append_nil us).symm, ha, rfl, rfl⟩

theorem one_bind_iff {kind : Kind} {M : Token → Phrase β} {us : List Token} {b : β} :
    (one kind).bind M us b ↔ ∃ t vs, us = t :: vs ∧ t.kind = kind ∧ M t vs b := by
  constructor
  · rintro ⟨vs, ws, t, rfl, ⟨rfl, ht⟩, h⟩
    exact ⟨t, ws, rfl, ht, h⟩
  · rintro ⟨t, vs, rfl, ht, h⟩
    exact ⟨[t], vs, t, rfl, ⟨rfl, ht⟩, h⟩

theorem one_bind_mk {kind : Kind} {M : Token → Phrase β} {t : Token} {us : List Token} {b : β}
    (ht : t.kind = kind) (h : M t us b) : (one kind).bind M (t :: us) b :=
  one_bind_iff.mpr ⟨t, us, rfl, ht, h⟩

/-- A last token, and no more. -/
theorem one_bind_empty_iff {kind : Kind} {f : Token → β} {us : List Token} {b : β} :
    (one kind).bind (fun t => empty (f t)) us b ↔ ∃ t, us = [t] ∧ t.kind = kind ∧ b = f t := by
  simp only [bind_empty_iff, one, and_assoc]

theorem exactly_bind_iff {t : Token} {a : α} {M : α → Phrase β} {us : List Token} {b : β} :
    (exactly t a).bind M us b ↔ ∃ vs, us = t :: vs ∧ M a vs b := by
  constructor
  · rintro ⟨vs, ws, _, rfl, ⟨rfl, rfl⟩, h⟩
    exact ⟨ws, rfl, h⟩
  · rintro ⟨vs, rfl, h⟩
    exact ⟨[t], vs, a, rfl, ⟨rfl, rfl⟩, h⟩

theorem exactly_bind_empty (t : Token) (a : α) (b : β) :
    (exactly t a).bind (fun _ => empty b) = exactly t b := by
  funext us c
  refine propext (exactly_bind_iff.trans ⟨?_, ?_⟩)
  · rintro ⟨vs, rfl, rfl, rfl⟩
    exact ⟨rfl, rfl⟩
  · rintro ⟨rfl, rfl⟩
    exact ⟨[], rfl, rfl, rfl⟩

/-! ## Phrases that can be completed -/

theorem viable_nil_iff {L : Phrase α} : Viable L [] ↔ Productive L := Iff.rfl

theorem Viable.of_append {L : Phrase α} {us vs : List Token} (h : Viable L (us ++ vs)) :
    Viable L us := by
  obtain ⟨zs, a, h⟩ := h
  exact ⟨vs ++ zs, a, by rwa [← List.append_assoc]⟩

theorem Viable.take {L : Phrase α} {us : List Token} (h : Viable L us) (n : Nat) :
    Viable L (us.take n) := by
  rw [← List.take_append_drop n us] at h
  exact h.of_append

theorem Productive.one (kind : Kind) : Productive (one kind) :=
  ⟨[⟨kind, "", ⟨0, 0⟩⟩], _, rfl, rfl⟩

theorem Productive.empty (a : α) : Productive (empty a) :=
  ⟨[], a, rfl, rfl⟩

theorem Productive.bind {L : Phrase α} {M : α → Phrase β} (hL : Productive L)
    (hM : ∀ a, Productive (M a)) : Productive (L.bind M) := by
  obtain ⟨us, a, ha⟩ := hL
  obtain ⟨vs, b, hb⟩ := hM a
  exact ⟨us ++ vs, b, us, vs, a, rfl, ha, hb⟩

theorem Productive.last (kind : Kind) (b : β) :
    Productive ((Phrase.one kind).bind fun _ => Phrase.empty b) :=
  (Productive.one kind).bind fun _ => .empty b

/-- What stands before a phrase and a beginning of the phrase is a beginning of both. -/
theorem Viable.bind {L : Phrase α} {M : α → Phrase β} {us vs : List Token} {a : α} (ha : L us a)
    (h : Viable (M a) vs) : Viable (L.bind M) (us ++ vs) := by
  obtain ⟨zs, b, hb⟩ := h
  exact ⟨zs, b, us, vs ++ zs, a, List.append_assoc .., ha, hb⟩

/-- The tokens of a phrase are a beginning of the phrase with a continuation. -/
theorem Viable.of_phrase {L : Phrase α} {K : α → Phrase γ} {us : List Token} {a : α} (ha : L us a)
    (hK : Productive (K a)) : Viable (L.bind K) us := by
  simpa using Viable.bind ha (viable_nil_iff.mpr hK)

/-! ## First tokens -/

theorem Begins.one (kind : Kind) : Begins (· == kind) (one kind) := by
  rintro us t ⟨rfl, rfl⟩
  exact ⟨t, [], rfl, beq_self_eq_true _⟩

theorem Begins.bind {first : Kind → Bool} {L : Phrase α} {M : α → Phrase β} (h : Begins first L) :
    Begins first (L.bind M) := by
  rintro _ b ⟨vs, ws, a, rfl, ha, hb⟩
  obtain ⟨t, vs', rfl, ht⟩ := h vs a ha
  exact ⟨t, vs' ++ ws, rfl, ht⟩

theorem Begins.mono {first first' : Kind → Bool} {L : Phrase α} (h : Begins first L)
    (hle : ∀ k, first k = true → first' k = true) : Begins first' L := by
  intro us a ha
  obtain ⟨t, vs, rfl, ht⟩ := h us a ha
  exact ⟨t, vs, rfl, hle _ ht⟩

theorem Begins.ne_nil {first : Kind → Bool} {L : Phrase α} (h : Begins first L) {us : List Token}
    {a : α} (ha : L us a) : us ≠ [] := by
  obtain ⟨t, vs, rfl, -⟩ := h us a ha
  exact List.cons_ne_nil t vs

/-! ## Continuations -/

theorem Follows.mono {go go' : Kind → Bool} {K : α → Phrase γ} (h : Follows go K)
    (hle : ∀ k, go' k = true → go k = true) : Follows go' K := by
  refine ⟨h.productive, fun a t ws c hc => ?_⟩
  have hgo := h.stops a t ws c hc
  cases hgo' : go' t.kind with
  | false => rfl
  | true => rw [hle _ hgo'] at hgo; cases hgo

/-- A continuation of one value is one of any value. -/
theorem Follows.comp {go : Kind → Bool} {K : β → Phrase γ} (h : Follows go K) (f : α → β) :
    Follows go fun a => K (f a) :=
  ⟨fun a => h.productive (f a), fun a => h.stops (f a)⟩

/-- A phrase that has to begin with other kinds may follow. -/
theorem Follows.of_begins {go first : Kind → Bool} {M : α → Phrase β} {K : β → Phrase γ}
    (hM : ∀ a, Productive (M a)) (hfirst : ∀ a, Begins first (M a)) (hK : ∀ b, Productive (K b))
    (hgo : ∀ k, first k = true → go k = false) : Follows go fun a => (M a).bind K := by
  refine ⟨fun a => (hM a).bind hK, fun a t ws c hc => ?_⟩
  obtain ⟨u, vs, hu, hk⟩ := (hfirst a).bind _ _ hc
  obtain ⟨rfl, rfl⟩ := List.cons.inj hu
  exact hgo _ hk

/-- Anything that can be completed may follow where no kind is taken for more. -/
theorem Follows.of_productive {K : α → Phrase γ} (h : ∀ a, Productive (K a)) :
    Follows (fun _ => false) K :=
  ⟨h, fun _ _ _ _ _ => rfl⟩

end Phrase

end JackCompiler
