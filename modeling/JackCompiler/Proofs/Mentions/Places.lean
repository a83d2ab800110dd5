import JackCompiler.Proofs.Lexis.Decomposition
import JackCompiler.Proofs.Mentions.Tokens
import JackCompiler.Proofs.Syntax.Acceptance

/-!
# Mentions in a source

What the tree of a source mentions stands in the source: names are words that are not reserved, and
the mentions of a subroutine follow one another.
-/

namespace JackCompiler

/-- A text of letters, digits and underscores, at least one of them. -/
structure IsWordText (text : String) : Prop where
  ne_empty : text.toList ≠ []
  chars : ∀ c ∈ text.toList, isWordChar c = true

/-- A text that can be a name. -/
structure IsNameText (text : String) : Prop extends IsWordText text where
  not_keyword : ∀ k : Keyword, text ≠ k.text

/-! ## Tokens -/

namespace Decomposes

variable {before cs : List Char} {ts : List Token}

theorem isLexeme (h : Decomposes before cs ts) : ∀ t ∈ ts, t.kind ≠ .finish →
    (∃ before after, IsLexeme before after t.kind t.text.toList) ∧
      t.span.size = byteCount t.text.toList := by
  induction h with
  | finish => simp [Token.finish]
  | @token before gap text after kind ts _ hlex _ ih =>
      rw [List.forall_mem_cons]
      refine ⟨fun _ => ?_, ih⟩
      rw [Token.behind, String.toList_ofList]
      exact ⟨⟨_, _, hlex⟩, rfl⟩

theorem isNameText (h : Decomposes before cs ts) {t : Token} (ht : t ∈ ts)
    (hk : t.kind = .identifier) : IsNameText t.text := by
  obtain ⟨⟨before, after, hlex⟩, -⟩ := h.isLexeme t ht (by simp [hk])
  rw [hk] at hlex
  cases hlex with
  | identifier hword _ hkeyword =>
      exact ⟨⟨hword.ne_nil, hword.inside⟩, fun k hk => hkeyword k (congrArg String.toList hk)⟩

theorem start_lt_stop (h : Decomposes before cs ts) {t : Token} (ht : t ∈ ts)
    (hk : t.kind ≠ .finish) : t.span.start < t.span.stop := by
  obtain ⟨⟨before, after, hlex⟩, hsize⟩ := h.isLexeme t ht hk
  have hpos := byteCount_pos hlex.ne_nil
  rw [Span.stop, hsize]
  omega

theorem starts_ascending (h : Decomposes before cs ts) :
    ts.Pairwise fun t u => t.span.start < u.span.start := by
  induction h with
  | finish => exact List.pairwise_singleton _ _
  | token hgap hlex hrest ih =>
      have hwhole := Decomposes.token hgap hlex hrest
      have hpos := hwhole.start_lt_stop List.mem_cons_self hlex.kind_ne_finish
      refine List.pairwise_cons.mpr ⟨fun u hu => ?_, ih⟩
      exact Nat.lt_of_lt_of_le hpos ((List.pairwise_cons.mp hwhole.ascending).1 u hu)

end Decomposes

/-! ## Spans in order -/

/-- Spans that hold a byte each and follow one another without overlap. -/
structure Ascending (spans : List Span) : Prop where
  start_lt_stop : ∀ s ∈ spans, s.start < s.stop
  follow : spans.Pairwise fun s s' => s.stop ≤ s'.start

theorem Ascending.sublist {spans spans' : List Span} (h : Ascending spans)
    (hsub : spans'.Sublist spans) : Ascending spans' :=
  ⟨fun s hs => h.start_lt_stop s (hsub.subset hs), h.follow.sublist hsub⟩

/-! ## Trees -/

theorem parse_ok_isClass {source : String} {tree : ClassTree}
    (h : (parse source).outcome = .ok tree) : ∃ (ts : List Token) (eof : Token) (n : Name)
      (members : List Member), faultOf? source = none ∧ tokensOf source = ts ++ [eof] ∧
      IsClass ts (n, members) ∧ tree = .ofMembers n members := by
  have hanswer := readClass_answer source
  rcases hr : (readClass source).1 with e | tree'
  · rw [parse_of_error hr] at h
    cases h
  · rw [parse_of_ok hr] at h
    cases h
    rw [hr] at hanswer
    cases hanswer with
    | accepted hts he _ hclass _ => exact ⟨_, _, _, _, he, hts, hclass, rfl⟩

/-- The tree of a source is written by the tokens of the source. -/
theorem parse_ok_writtenIn {source : String} {tree : ClassTree}
    (h : (parse source).outcome = .ok tree) :
    Decomposes [] source.toList (tokensOf source) ∧ tree.WrittenIn (tokensOf source) := by
  obtain ⟨ts, eof, n, members, hfault, hts, hclass, rfl⟩ := parse_ok_isClass h
  refine ⟨decomposes_iff.mpr ⟨rfl, hfault⟩, ?_⟩
  have hwritten := hclass.tree_writtenIn
  have hsub : ∀ t ∈ ts, t ∈ tokensOf source := fun t ht => hts ▸ List.mem_append_left _ ht
  refine ⟨fun n hn => ?_, fun s hs => ?_, fun d hd => ?_, fun s hs d hd => ?_⟩
  · obtain ⟨t, ht, hwrites⟩ := hwritten.names n hn
    exact ⟨t, hsub t ht, hwrites⟩
  · rw [hts]
    exact (hwritten.mentions s hs).left _
  · exact (hwritten.types d hd).mono hsub
  · exact (hwritten.localTypes s hs d hd).mono hsub

namespace Decomposes

variable {before cs : List Char} {ts : List Token}

theorem isNameText_of_writtenBy (h : Decomposes before cs ts) {role : Role} {n : Name}
    (hn : ∃ t ∈ ts, Mention.WrittenBy (.name role n) t) : IsNameText n.text := by
  obtain ⟨t, ht, hwrites⟩ := hn
  cases hwrites with
  | name hk => exact h.isNameText ht hk

theorem isWordText_type (h : Decomposes before cs ts) {type : VarType}
    (htype : type.WrittenIn ts) : IsWordText type.text := by
  cases type with
  | int | char | boolean => exact ⟨by decide, List.all_eq_true.mp (by decide)⟩
  | object x =>
      obtain ⟨t, ht, hk, rfl⟩ := htype x rfl
      exact (h.isNameText ht hk).toIsWordText

/-- The spans of mentions that are written in order ascend. -/
theorem ascending_spans (h : Decomposes before cs ts) {ms : List Mention} (hms : WrittenIn ts ms) :
    Ascending (ms.filterMap Mention.span?) where
  start_lt_stop := by
    intro s hs
    obtain ⟨m, hm, hspan⟩ := List.mem_filterMap.mp hs
    obtain ⟨t, ht, hwrites⟩ := hms.exists_token hm
    obtain ⟨rfl, hk⟩ := hwrites.span_eq hspan
    exact h.start_lt_stop ht hk
  follow := (List.pairwise_map.mpr h.ascending).sublist hms.spans

theorem spans_ascending (h : Decomposes before cs ts) {ms : List Mention} (hms : WrittenIn ts ms) :
    (ms.filterMap Mention.span?).Pairwise fun s s' => s.start < s.stop ∧ s.stop ≤ s'.start := by
  have hspans := h.ascending_spans hms
  exact hspans.follow.imp_of_mem fun hs _ hle => ⟨hspans.start_lt_stop _ hs, hle⟩

end Decomposes

end JackCompiler
