import JackCompiler.Proofs.Syntax.Sources

/-!
# Which sources are accepted

A source without a lexical complaint is read to a tree exactly if its tokens form a class, and then
the tree is the one that they form. Any other source is refused on account of the first token that
nothing can follow to make a class of it, unless the scanner complains about that token or the next.

## Implementation notes

A token is a misfit if the tokens through it are no beginning of a class and the end. The completion
may be anything; it does not have to agree with what the source goes on with.
-/

namespace JackCompiler

open Phrase

theorem parse_of_ok {source : String} {tree : ClassTree} (h : (readClass source).1 = .ok tree) :
    (parse source).outcome = .ok tree := by
  unfold parse
  split
  · next hr =>
    rw [hr] at h
    cases h
    rfl
  · next hr =>
    rw [hr] at h
    cases h

theorem parse_of_error {source : String} {e : Complaint} (h : (readClass source).1 = .error e) :
    (parse source).outcome = .error (e.failure source) := by
  unfold parse
  split
  · next hr =>
    rw [hr] at h
    cases h
  · next hr =>
    rw [hr] at h
    cases h
    rfl

/-- Sources without a lexical complaint are accepted exactly if the grammar derives a class from
their tokens before the end. The tree is that of the class, and there is only one. -/
theorem parse_ok_iff (source : String) (h : faultOf? source = none) :
    ∃ (ts : List Token) (eof : Token), tokensOf source = ts ++ [eof] ∧ eof.kind = .finish ∧
      (∀ tree, (parse source).outcome = .ok tree ↔
        ∃ n members, IsClass ts (n, members) ∧ tree = ClassTree.ofMembers n members) ∧
      ∀ c d, IsClass ts c → IsClass ts d → c = d := by
  have hscans := tokensOf_scans source
  have hanswer := readClass_answer source
  rw [h] at hscans hanswer
  obtain ⟨ts, eof, hts, heof⟩ := hscans.eq_concat_finish
  refine ⟨ts, eof, hts, heof, ?_⟩
  rw [hts] at hanswer
  generalize hr : (readClass source).1 = r at hanswer
  cases hanswer with
  | @accepted us _ c hus _ _ hc hunique =>
      obtain ⟨rfl, -⟩ := List.append_inj' hus rfl
      rw [parse_of_ok hr]
      refine ⟨fun tree => ⟨fun htree => ?_, ?_⟩, fun c' d hc' hd => ?_⟩
      · cases htree
        exact ⟨c.1, c.2, hc, rfl⟩
      · rintro ⟨n, members, hclass, rfl⟩
        obtain rfl := hunique _ hclass
        rfl
      · rw [hunique c' hc', hunique d hd]
  | @misfit us vs t cause hus _ _ hnot =>
      have hnone (c : Name × List Member) : ¬IsClass ts c := by
        intro hc
        refine hnot ⟨vs, c, ?_⟩
        rw [List.append_assoc, List.singleton_append, ← hus]
        exact .ended hc heof
      rw [parse_of_error hr]
      refine ⟨fun tree => ⟨by simp, ?_⟩, fun c d hc => absurd hc (hnone c)⟩
      rintro ⟨n, members, hclass, -⟩
      exact absurd hclass (hnone _)
  | lexical he => cases he

/-- A class that counts. -/
def counterSource : String :=
  "class Counter { field int n; method int next() { return n + 1; } }"

theorem counter_parse_ok_iff : faultOf? counterSource = none ∧
    ∃ (ts : List Token) (eof : Token) (n : Name) (members : List Member),
      tokensOf counterSource = ts ++ [eof] ∧ eof.kind = .finish ∧
      IsClass ts (n, members) ∧ ∀ d, IsClass ts d → d = (n, members) := by
  have hfault : faultOf? counterSource = none := by decide +kernel
  have hok : (parse counterSource).outcome.isOk = true := by decide +kernel
  obtain ⟨ts, eof, hts, heof, hiff, hunique⟩ := parse_ok_iff counterSource hfault
  rcases hparse : (parse counterSource).outcome with e | tree
  · rw [hparse] at hok
    cases hok
  · obtain ⟨n, members, hclass, -⟩ := (hiff tree).mp hparse
    exact ⟨hfault, ts, eof, n, members, hts, heof, hclass, fun d hd => hunique d _ hd hclass⟩

/-- The first token of a list that does not fit: the tokens through it are no beginning of the
tokens of a source, and each shorter beginning of the list is one. -/
structure FirstMisfit (ts : List Token) (k : Nat) : Prop where
  lt : k < ts.length
  fits : ∀ i < k, Viable IsSource (ts.take (i + 1))
  misfit : ¬Viable IsSource (ts.take (k + 1))

theorem FirstMisfit.unique {ts : List Token} {j k : Nat} (hj : FirstMisfit ts j)
    (hk : FirstMisfit ts k) : j = k := by
  rcases Nat.lt_trichotomy j k with hlt | heq | hlt
  · exact absurd (hk.fits j hlt) hj.misfit
  · exact heq
  · exact absurd (hj.fits k hlt) hk.misfit

theorem FirstMisfit.of_viable {us vs : List Token} {t : Token} (hviable : Viable IsSource us)
    (hnot : ¬Viable IsSource (us ++ [t])) : FirstMisfit (us ++ t :: vs) us.length := by
  refine ⟨by simp, fun i hi => ?_, ?_⟩
  · rw [List.take_append_of_le_length hi]
    exact hviable.take (i + 1)
  · rwa [List.take_append, List.take_of_length_le (Nat.le_succ _), Nat.add_sub_cancel_left,
      List.take_succ_cons, List.take_zero]

/-- One of three things is true of a source: it is accepted and has no misfit, it is refused at its
first misfit, or it is refused for a lexical complaint that comes no later than after that. -/
theorem parse_cases (source : String) :
    (faultOf? source = none ∧ (∀ k, ¬FirstMisfit (tokensOf source) k) ∧
      ∃ tree, (parse source).outcome = .ok tree) ∨
    (∃ k t cause l, FirstMisfit (tokensOf source) k ∧
      (faultOf? source = none ∨ k + 2 ≤ (tokensOf source).length) ∧
      (tokensOf source)[k]? = some t ∧ t.StandsAt source l ∧
      (parse source).outcome = .error (.diagnosed ⟨.grammar cause, l⟩)) ∨
    ∃ e cause l, faultOf? source = some e ∧
      (∀ k, FirstMisfit (tokensOf source) k → (tokensOf source).length < k + 2) ∧
      e.cause = .lexical cause ∧ Location.of? source e.offset = some l ∧
      (parse source).outcome = .error (.diagnosed ⟨.lexical cause, l⟩) := by
  have hscans := tokensOf_scans source
  have hanswer := readClass_answer source
  generalize hr : (readClass source).1 = r at hanswer
  cases hanswer with
  | @accepted us eof c hus he heof hc _ =>
      refine .inl ⟨he, fun k hk => ?_, _, parse_of_ok hr⟩
      have hviable : Viable IsSource (tokensOf source) := by
        rw [hus]
        exact ⟨[], c, by rw [List.append_nil]; exact .ended hc heof⟩
      exact hk.misfit (hviable.take (k + 1))
  | @misfit us vs t cause hus he hviable hnot =>
      obtain ⟨l, hl, hstands⟩ := hscans.standsAt (.refl _) (t := t) (by rw [hus]; simp)
      have hfirst : FirstMisfit (us ++ t :: vs) us.length := .of_viable hviable hnot
      rw [← hus] at hfirst
      refine .inr (.inl ⟨us.length, t, cause, l, hfirst, he.imp_right ?_, ?_, hstands, ?_⟩)
      · intro hvs
        have hpos := List.length_pos_iff.mpr hvs
        rw [hus, List.length_append, List.length_cons]
        omega
      · rw [hus]
        simp
      · rw [parse_of_error hr, Complaint.failure, Complaint.diagnosis?, hl]
        rfl
  | @lexical e he hviable =>
      rw [he] at hscans
      obtain ⟨⟨cause, hcause⟩, l, hl⟩ := hscans.fault_location (.refl _)
      refine .inr (.inr ⟨e, cause, l, he, fun k hk => ?_, hcause, hl, ?_⟩)
      · by_contra hearly
        have hfits := hviable.take (k + 1)
        rw [List.dropLast_eq_take, List.take_take, Nat.min_eq_left (by omega)] at hfits
        exact hk.misfit hfits
      · rw [parse_of_error hr, Complaint.failure, Complaint.diagnosis?, hl, hcause]
        rfl

/-- What is said about a source. If its tokens before a lexical complaint have a first misfit that
is not the last of them, the source is refused there. Otherwise a lexical complaint is passed on,
and without one the source is accepted. In particular a refusal by the grammar is never later than
at the first misfit. -/
theorem parse_outcome (source : String) :
    (∀ k, FirstMisfit (tokensOf source) k →
      (faultOf? source = none ∨ k + 2 ≤ (tokensOf source).length) →
      ∃ t cause l, (tokensOf source)[k]? = some t ∧ t.StandsAt source l ∧
        (parse source).outcome = .error (.diagnosed ⟨.grammar cause, l⟩)) ∧
    (∀ e, faultOf? source = some e →
      (∀ k, FirstMisfit (tokensOf source) k → (tokensOf source).length < k + 2) →
      ∃ cause l, e.cause = .lexical cause ∧ Location.of? source e.offset = some l ∧
        (parse source).outcome = .error (.diagnosed ⟨.lexical cause, l⟩)) ∧
    (faultOf? source = none → (∀ k, ¬FirstMisfit (tokensOf source) k) →
      ∃ tree, (parse source).outcome = .ok tree) ∧
    ∀ cause l, (parse source).outcome = .error (.diagnosed ⟨.grammar cause, l⟩) →
      ∃ k t, FirstMisfit (tokensOf source) k ∧ (tokensOf source)[k]? = some t ∧
        t.StandsAt source l := by
  rcases parse_cases source with ⟨he, hnone, tree, hparse⟩ |
    ⟨k, t, cause, l, hk, hearly, ht, hstands, hparse⟩ | ⟨e, cause, l, he, hlate, hcause, hl, hparse⟩
  · refine ⟨fun k hk => absurd hk (hnone k), fun e hfault => ?_, fun _ _ => ⟨tree, hparse⟩, ?_⟩
    · rw [he] at hfault
      cases hfault
    · intro cause l herror
      rw [hparse] at herror
      cases herror
  · refine ⟨fun k' hk' _ => ?_, fun e hfault hlate => ?_, fun _ hnone => absurd hk (hnone k), ?_⟩
    · obtain rfl := hk'.unique hk
      exact ⟨t, cause, l, ht, hstands, hparse⟩
    · have hlength := hlate k hk
      rcases hearly with hnone | hle
      · rw [hnone] at hfault
        cases hfault
      · omega
    · intro cause' l' herror
      rw [hparse] at herror
      cases herror
      exact ⟨k, t, hk, ht, hstands⟩
  · refine ⟨fun k hk hearly => ?_, fun e' hfault _ => ?_, fun hfault => ?_, ?_⟩
    · have hlength := hlate k hk
      rcases hearly with hnone | hle
      · rw [he] at hnone
        cases hnone
      · omega
    · obtain rfl := Option.some_inj.mp (hfault.symm.trans he)
      exact ⟨cause, l, hcause, hl, hparse⟩
    · rw [he] at hfault
      cases hfault
    · intro cause' l' herror
      rw [hparse] at herror
      cases herror

-- A lexical complaint overtakes a refusal at the token right before it, and no earlier one.
example :
    let refusal (source : String) : Option (Cause × Nat) :=
      match (parse source).outcome with
      | .error (.diagnosed d) => some (d.cause, d.location.column)
      | _ => none
    refusal "class 7 \"" = some (.lexical .unterminatedText, 9) ∧
      refusal "class 7 x \"" = some (.grammar (.unexpected "7" "identifier"), 7) := by
  decide +kernel

end JackCompiler
