import JackCompiler.Proofs.Mentions.Places
import Mathlib.Data.List.Perm.Basic

/-!
# Spans that a tree keeps

A tree keeps a span with each of its names and with each of its string constants. Cut out of the
source at its span, a name is the name and a string constant is its contents between quotes, and
each of these spans is that of a token of its own. In the order in which a source writes them they
ascend.

## Implementation notes

A class mixes its variables and its subroutines, and a tree does not keep in which order. The spans
of a whole tree are therefore compared through the members of a class that has the tree: there they
ascend as a whole, so that no two spans of the tree overlap.
-/

namespace JackCompiler

/-- The mentions of a class: its name, its variables and its subroutines. -/
def ClassTree.mentions (c : ClassTree) : List Mention :=
  .name .declared c.name ::
    (c.vars.flatMap (fun v => declaredMentions v.names) ++
      c.subroutines.flatMap Subroutine.mentions)

/-- The spans that the mentions of a list have, in order. -/
def spansOf (ms : List Mention) : List Span :=
  ms.filterMap Mention.span?

/-- A span of a source is that of a token of a kind, and a text stands there. -/
structure Span.Holds (source : String) (kind : Kind) (text : String) (span : Span) : Prop where
  fragment : span.fragment? source = some text
  token : ∃ t ∈ tokensOf source, t.kind = kind ∧ t.span = span

/-- Two spans have no byte in common. -/
def Span.Disjoint (s s' : Span) : Prop :=
  s.stop ≤ s'.start ∨ s'.stop ≤ s.start

theorem Span.Disjoint.symm {s s' : Span} (h : s.Disjoint s') : s'.Disjoint s :=
  Or.symm h

theorem Span.Disjoint.ne {s s' : Span} (h : s.Disjoint s') (hs : s.start < s.stop) : s ≠ s' := by
  rintro rfl
  rcases h with h | h <;> exact absurd hs (Nat.not_lt.mpr h)

/-! ## Mentions of a class and of its members -/

namespace ClassTree

variable {n : Name} {members : List Member}

/-- The mentions of a class are those of its members. -/
theorem mentions_ofMembers (n : Name) (members : List Member) :
    (ofMembers n members).mentions.Perm
      (.name .declared n :: members.flatMap Member.mentions) := by
  refine List.Perm.cons _ ?_
  induction members with
  | nil => exact .refl _
  | cons m members ih =>
      cases m with
      | vars v =>
          have happend := ih.append_left (declaredMentions v.names)
          rwa [← List.append_assoc] at happend
      | subroutine s =>
          have hfront := List.perm_append_comm_assoc
            ((ofMembers n members).vars.flatMap fun v => declaredMentions v.names) s.mentions
            ((ofMembers n members).subroutines.flatMap Subroutine.mentions)
          exact hfront.trans (ih.append_left s.mentions)

/-- The mentions of a line of class variables stand together in the class. -/
theorem sublist_vars {v : ClassVariables} (hv : v ∈ (ofMembers n members).vars) :
    (declaredMentions v.names).Sublist
      (.name .declared n :: members.flatMap Member.mentions) := by
  have hm := List.mem_map_of_mem (f := Member.mentions) (mem_vars_ofMembers.mp hv)
  exact (List.sublist_flatten_of_mem hm).cons _

/-- So do those of a subroutine. -/
theorem sublist_subroutines {s : Subroutine} (hs : s ∈ (ofMembers n members).subroutines) :
    s.mentions.Sublist (.name .declared n :: members.flatMap Member.mentions) := by
  have hm := List.mem_map_of_mem (f := Member.mentions) (mem_subroutines_ofMembers.mp hs)
  exact (List.sublist_flatten_of_mem hm).cons _

end ClassTree

theorem spansOf_declaredMentions (names : List Name) :
    spansOf (declaredMentions names) = names.map Name.span := by
  simp [spansOf, declaredMentions, List.filterMap_map, Function.comp_def, Mention.span?]

/-! ## Sources -/

variable {source : String} {tree : ClassTree}

/-- A source that is accepted has members that make up the tree, and tokens that write these members
in order. -/
theorem parse_ok_members (h : (parse source).outcome = .ok tree) :
    Decomposes [] source.toList (tokensOf source) ∧ ∃ members,
      tree = .ofMembers tree.name members ∧ WrittenIn (tokensOf source)
        (.name .declared tree.name :: members.flatMap Member.mentions) := by
  obtain ⟨ts, eof, n, members, hfault, hts, hclass, rfl⟩ := parse_ok_isClass h
  refine ⟨decomposes_iff.mpr ⟨rfl, hfault⟩, members, rfl, ?_⟩
  rw [hts]
  exact hclass.writtenIn.left [eof]

/-- What is written by a token of a source stands there at its span. -/
theorem Mention.WrittenBy.holds {m : Mention} {t : Token}
    (hsource : Decomposes [] source.toList (tokensOf source)) (ht : t ∈ tokensOf source)
    (h : m.WrittenBy t) :
    (∀ role n, m = .name role n → n.span.Holds source .identifier n.text) ∧
      ∀ contents span, m = .text contents span →
        span.Holds source .text ("\"" ++ contents ++ "\"") := by
  have hfragment := hsource.fragment? rfl t ht
  cases h with
  | name hk =>
      refine ⟨fun role n hm => ?_, nofun⟩
      cases hm
      exact ⟨hfragment, t, ht, hk, rfl⟩
  | number => exact ⟨nofun, nofun⟩
  | text hk htext =>
      refine ⟨nofun, fun contents span hm => ?_⟩
      cases hm
      exact ⟨htext ▸ hfragment, t, ht, hk, rfl⟩

/-- The spans of the tree of a source are faithful. At the span of a name the source has the name
and a token that is an identifier, and at that of a string constant it has the contents between
quotes and a token that is a string constant. In a line of class variables and in a subroutine the
spans ascend in the order in which the source writes what they are kept for. No two spans in the
whole tree overlap, and no token is in the tree more than once. -/
theorem parse_ok_spans (h : (parse source).outcome = .ok tree) :
    (∀ role n, .name role n ∈ tree.mentions → n.span.Holds source .identifier n.text) ∧
    (∀ contents span, .text contents span ∈ tree.mentions →
      span.Holds source .text ("\"" ++ contents ++ "\"")) ∧
    (∀ v ∈ tree.vars, Ascending (v.names.map Name.span)) ∧
    (∀ s ∈ tree.subroutines, Ascending (spansOf s.mentions)) ∧
    (spansOf tree.mentions).Pairwise Span.Disjoint ∧
    ∀ t ∈ tokensOf source, (spansOf tree.mentions).count t.span ≤ 1 := by
  obtain ⟨hsource, members, htree, hwritten⟩ := parse_ok_members h
  rw [htree]
  -- The members stand in the order of the source, which the tree does not keep.
  have hperm := ClassTree.mentions_ofMembers tree.name members
  have hascending := hsource.ascending_spans hwritten
  have hspans := hperm.filterMap Mention.span?
  have hdisjoint : (spansOf (ClassTree.ofMembers tree.name members).mentions).Pairwise
      Span.Disjoint :=
    (hspans.pairwise_iff Span.Disjoint.symm).mpr (hascending.follow.imp Or.inl)
  refine ⟨fun role n hn => ?_, fun contents span hm => ?_, fun v hv => ?_, fun s hs => ?_,
    hdisjoint, fun t _ => ?_⟩
  · obtain ⟨t, ht, hwrites⟩ := hwritten.exists_token (hperm.subset hn)
    exact (hwrites.holds hsource ht).1 role n rfl
  · obtain ⟨t, ht, hwrites⟩ := hwritten.exists_token (hperm.subset hm)
    exact (hwrites.holds hsource ht).2 contents span rfl
  · rw [← spansOf_declaredMentions]
    exact hascending.sublist ((ClassTree.sublist_vars hv).filterMap _)
  · exact hascending.sublist ((ClassTree.sublist_subroutines hs).filterMap _)
  · have hnodup : (spansOf (ClassTree.ofMembers tree.name members).mentions).Nodup :=
      hdisjoint.imp_of_mem fun hs _ hapart =>
        hapart.ne (hascending.start_lt_stop _ (hspans.subset hs))
    exact List.nodup_iff_count_le_one.mp hnodup _

/-- A class whose method assigns to a cell what a call with a string constant returns. -/
def boxSource : String :=
  "class Box \x7b method void put(Box b) \x7b let a[b] = b.get(\"key\"); return; \x7d " ++
    "field int a; \x7d"

theorem boxSource_spans : ∃ tree, (parse boxSource).outcome = .ok tree ∧
    (spansOf tree.mentions).map (·.fragment? boxSource) =
      ["Box", "a", "put", "b", "a", "b", "b", "get", "\"key\""].map some ∧
    Span.Holds boxSource .text "\"key\"" ⟨54, 5⟩ ∧
    (spansOf tree.mentions).Pairwise Span.Disjoint := by
  have htexts : (parse boxSource).outcome.toOption.map (fun tree =>
      ((spansOf tree.mentions).map (·.fragment? boxSource),
        decide (.text "key" ⟨54, 5⟩ ∈ tree.mentions))) =
      some (["Box", "a", "put", "b", "a", "b", "b", "get", "\"key\""].map some, true) := by
    decide +kernel
  rcases hparse : (parse boxSource).outcome with e | tree
  · rw [hparse] at htexts
    cases htexts
  · rw [hparse] at htexts
    obtain ⟨hfragments, hmem⟩ := Prod.mk.inj (Option.some_inj.mp htexts)
    obtain ⟨-, hcontents, -, -, hdisjoint, -⟩ := parse_ok_spans hparse
    exact ⟨tree, rfl, hfragments, hcontents _ _ (of_decide_eq_true hmem), hdisjoint⟩

end JackCompiler
