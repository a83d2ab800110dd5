import JackCompiler.Proofs.Declarations.Offences
import JackCompiler.Proofs.Delivery.Unlimited
import JackCompiler.Proofs.Mentions.Places

/-!
# The outcome of a compilation

A source that parses is compiled into a sink that never fails exactly if its class has no offence,
and otherwise the outcome is a diagnosis of the first offence, at the place of a token. The options
do not matter.
-/

namespace JackCompiler

/-! ## Where offences stand -/

/-- The place of an offence is that of the mention that makes it. -/
theorem Mention.offence?_span {p : String → Bool} {m : Mention} {e : Complaint}
    (h : m.offence? p = some e) : ∃ span, m.span? = some span ∧ e.offset = span.start := by
  match m, h with
  | .name .variable n, h =>
      simp only [offence?] at h
      split at h
      · cases h
      · cases h
        exact ⟨_, rfl, rfl⟩
  | .text contents span, h =>
      rcases offence?_text_eq_some_iff.mp h with ⟨_, _, _, _, _, _, rfl⟩ | ⟨_, _, rfl⟩
      · exact ⟨_, rfl, rfl⟩
      · exact ⟨_, rfl, rfl⟩
  | .name .declared _, h | .name .receiver _, h | .name .callee _, h => cases h
  | .number _, h => cases h

theorem offences_offsets (p : String → Bool) (ms : List Mention) :
    ((ms.filterMap (Mention.offence? p)).map Complaint.offset).Sublist
      ((ms.filterMap Mention.span?).map Span.start) := by
  induction ms with
  | nil => exact List.nil_sublist _
  | cons m ms ih =>
      cases he : m.offence? p with
      | none =>
          rw [List.filterMap_cons_none he]
          refine ih.trans (List.Sublist.map _ ?_)
          exact (List.sublist_cons_self m ms).filterMap _
      | some e =>
          obtain ⟨span, hspan, hoffset⟩ := Mention.offence?_span he
          rw [List.filterMap_cons_some he, List.filterMap_cons_some hspan, List.map_cons,
            List.map_cons, hoffset]
          exact ih.cons_cons _

/-- A token is what a cause is about: the name that is not declared or finds no number left, or the
string constant that does not fit the machine. -/
def MeaningCause.Concerns : MeaningCause → Token → Prop
  | undefinedVariable name, t => t.kind = .identifier ∧ t.text = name
  | characterOutOfRange c, t => t.kind = .text ∧ c ∈ t.text.toList
  | textTooLong length, t => t.kind = .text ∧ t.text.toList.length = length + 2
  | tooManyVariables _, t => t.kind = .identifier

/-- An offence stands where the token that it is about does. -/
theorem IsOffence.exists_concerned {us : List Token} {c : ClassTree} (hwritten : c.WrittenIn us)
    {e : Complaint} (h : IsOffence c e) : ∃ t ∈ us, t.span.start = e.offset ∧
      ∃ cause, e.cause = .meaning cause ∧ cause.Concerns t := by
  have hname {role : Role} {n : Name} (hn : ∃ t ∈ us, Mention.WrittenBy (.name role n) t) :
      ∃ t ∈ us, t.span.start = n.span.start ∧ t.kind = .identifier ∧ t.text = n.text := by
    obtain ⟨t, ht, hwrites⟩ := hn
    cases hwrites with
    | name hk => exact ⟨t, ht, rfl, hk, rfl⟩
  have htext {s : Subroutine} {contents : String} {span : Span} (hs : s ∈ c.subroutines)
      (hm : .text contents span ∈ s.mentions) : ∃ t ∈ us, t.span.start = span.start ∧
        t.kind = .text ∧ t.text.toList = '"' :: (contents.toList ++ ['"']) := by
    obtain ⟨t, ht, hwrites⟩ := (hwritten.mentions s hs).exists_token hm
    cases hwrites with
    | text hk htext =>
        refine ⟨t, ht, rfl, hk, ?_⟩
        rw [htext, String.toList_append, String.toList_append]
        rfl
  cases h with
  | @classVariable before after d hds _ =>
      have hd : d ∈ c.declarations := by simp [hds]
      obtain ⟨t, ht, hstart, hk, -⟩ :=
        hname (hwritten.names d.name (List.mem_cons_of_mem _ (List.mem_map_of_mem hd)))
      exact ⟨t, ht, hstart, _, rfl, hk⟩
  | @subroutineVariable s before after d hs hds _ =>
      have hd : d ∈ s.declarations := by simp [hds]
      have hm := Subroutine.declared_mem_mentions hd
      obtain ⟨t, ht, hstart, hk, -⟩ := hname ((hwritten.mentions s hs).exists_token hm)
      exact ⟨t, ht, hstart, _, rfl, hk⟩
  | undeclared hs hm _ =>
      obtain ⟨t, ht, hstart, hk, htext⟩ := hname ((hwritten.mentions _ hs).exists_token hm)
      exact ⟨t, ht, hstart, _, rfl, hk, htext⟩
  | character hs hm hcontents _ _ =>
      obtain ⟨t, ht, hstart, hk, htext⟩ := htext hs hm
      exact ⟨t, ht, hstart, _, rfl, hk, by simp [htext, hcontents]⟩
  | length hs hm _ _ =>
      obtain ⟨t, ht, hstart, hk, htext⟩ := htext hs hm
      exact ⟨t, ht, hstart, _, rfl, hk, by simp [htext]⟩

/-- An offence stands where a token of the source does. -/
theorem IsOffence.exists_token {us : List Token} {c : ClassTree} (hwritten : c.WrittenIn us)
    {e : Complaint} (h : IsOffence c e) : ∃ t ∈ us, t.span.start = e.offset := by
  obtain ⟨t, ht, hstart, -⟩ := h.exists_concerned hwritten
  exact ⟨t, ht, hstart⟩

/-! ## Sources -/

theorem neverThis_of_parse {source : String} {tree : ClassTree}
    (h : (parse source).outcome = .ok tree) : tree.NeverThis := by
  obtain ⟨hdecomposes, hwritten⟩ := parse_ok_writtenIn h
  intro s hs role n hn
  have hname := hdecomposes.isNameText_of_writtenBy ((hwritten.mentions s hs).exists_token hn)
  exact hname.not_keyword .this

theorem compileInto_outcome_eq {source : String} {tree : ClassTree}
    (h : (parse source).outcome = .ok tree) (o : Options) {sink : Sink} (hroom : sink.room = none)
    (hflush : sink.flushFails = false) : (compileInto o source sink).1.outcome =
      match tree.offences with
      | e :: _ => .error (e.failure source)
      | [] => .ok () := by
  have hfault := tree.output_fault o (neverThis_of_parse h)
  unfold compileInto Report.compiledInto
  split
  · next hparse =>
    rw [hparse] at h
    cases h
  · next hparse =>
    rw [hparse] at h
    cases h
    have hsink : sink.Unlimited := ⟨hroom, hflush⟩
    have hfault' : (Generator.new.compile o tree).1.fault = tree.offences.head? := hfault
    simp only [Compiler.compile, Compiler.new, hsink.deliver, Trail.outcome, hfault']
    cases tree.offences <;> rfl

/-- A source that parses is compiled if its class has no offence, and otherwise the first of them is
diagnosed, under all options. The listed offences are all that the class has, and those that the
statements of a subroutine make are listed as they stand in the source. -/
theorem compileInto_outcome {source : String} {tree : ClassTree}
    (h : (parse source).outcome = .ok tree) :
    (∀ (o : Options) (sink : Sink), sink.room = none → sink.flushFails = false →
      (tree.offences = [] → (compileInto o source sink).1.outcome = .ok ()) ∧
      ∀ e es, tree.offences = e :: es → ∃ l, Location.of? source e.offset = some l ∧
        (compileInto o source sink).1.outcome = .error (.diagnosed ⟨e.cause, l⟩)) ∧
    (∀ e, e ∈ tree.offences ↔ IsOffence tree e) ∧
    ∀ s ∈ tree.subroutines, (s.mentions.filterMap (Mention.offence? (tree.declares s))).Pairwise
      fun e e' => e.offset < e'.offset := by
  obtain ⟨hdecomposes, hwritten⟩ := parse_ok_writtenIn h
  refine ⟨fun o sink hroom hflush => ⟨fun hnone => ?_, fun e es hes => ?_⟩,
    fun e => mem_offences_iff, fun s hs => ?_⟩
  · rw [compileInto_outcome_eq h o hroom hflush, hnone]
  · have hoffence : IsOffence tree e := mem_offences_iff.mp (hes ▸ List.mem_cons_self)
    obtain ⟨t, ht, hstart⟩ := hoffence.exists_token hwritten
    obtain ⟨l, hl, -⟩ := (tokensOf_scans source).standsAt (.refl _) ht
    rw [hstart] at hl
    refine ⟨l, hl, ?_⟩
    rw [compileInto_outcome_eq h o hroom hflush, hes]
    simp only [Complaint.failure, Complaint.diagnosis?, hl]
    rfl
  · have hspans := hdecomposes.spans_ascending (hwritten.mentions s hs)
    have hstarts : ((s.mentions.filterMap Mention.span?).map Span.start).Pairwise (· < ·) :=
      List.pairwise_map.mpr (hspans.imp fun hlt => Nat.lt_of_lt_of_le hlt.1 hlt.2)
    exact List.pairwise_map.mp (hstarts.sublist (offences_offsets _ _))

/-- A class with two variables that nothing declares, and with a receiver and a class variable that
are no offences. -/
def undeclaredSource : String :=
  "class A { function int f(int n) { do b.g(n); let c = k; return d; } static int k; }"

theorem undeclaredSource_outcome : ∃ tree, (parse undeclaredSource).outcome = .ok tree ∧
    (∀ o, ∃ l, Location.of? undeclaredSource 49 = some l ∧
      (compileInto o undeclaredSource (Sink.empty none false)).1.outcome =
        .error (.diagnosed ⟨.meaning (.undefinedVariable "c"), l⟩)) ∧
    IsOffence tree ⟨.meaning (.undefinedVariable "d"), 63⟩ := by
  have hoffences : (parse undeclaredSource).outcome.toOption.map ClassTree.offences =
      some [⟨.meaning (.undefinedVariable "c"), 49⟩, ⟨.meaning (.undefinedVariable "d"), 63⟩] := by
    decide +kernel
  rcases hparse : (parse undeclaredSource).outcome with e | tree
  · rw [hparse] at hoffences
    cases hoffences
  · rw [hparse] at hoffences
    have hes := Option.some_inj.mp hoffences
    obtain ⟨houtcome, hiff, -⟩ := compileInto_outcome hparse
    refine ⟨tree, rfl, fun o => ?_, (hiff _).mp ?_⟩
    · exact (houtcome o (Sink.empty none false) rfl rfl).2 _ _ hes
    · rw [hes]
      exact List.mem_cons_of_mem _ List.mem_cons_self

end JackCompiler
