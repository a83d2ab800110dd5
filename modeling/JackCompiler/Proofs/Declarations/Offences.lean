import JackCompiler.Proofs.Declarations.Scopes
import JackCompiler.Proofs.Output.Faults

/-!
# Offences of a class

A class that is well formed fails to compile exactly if it has an offence: a declaration that finds
no number left, a variable that is declared nowhere, or a string constant that does not fit the
constants of the machine. The offences are listed in the order in which they are met, so the
complaint is the first of them, under all options.

## Implementation notes

The variables of a class are declared first, so the offence of a class variable comes before those
of any subroutine. Within a subroutine the variables come before the statements.
-/

namespace JackCompiler

/-- The complaints about declarations that find no number left, given how many variables of each
kind there are before. -/
def overflows (taken : VariableKind → Nat) (ds : List Declaration) : List Complaint :=
  ((numbered taken ds).filter fun p => !fits p).map (·.1.overflow)

namespace ClassTree

/-- The offences of a subroutine: its parameters and local variables that find no number left, and
what its statements mention wrongly, in source order. -/
def subroutineOffences (c : ClassTree) (s : Subroutine) : List Complaint :=
  overflows s.kind.hidden s.declarations ++ s.mentions.filterMap (Mention.offence? (c.declares s))

/-- The offences of a class: its variables that find no number left, and those of its
subroutines. -/
def offences (c : ClassTree) : List Complaint :=
  overflows (fun _ => 0) c.declarations ++ c.subroutines.flatMap c.subroutineOffences

end ClassTree

/-! ## What stops the output -/

theorem declare_fault_eq_head? (s : Scope) (ds : List Declaration) :
    (s.declare ds).1.fault = (overflows s.count ds).head? := by
  rw [Scope.declare_fault, overflows, List.head?_map, List.head?_filter]

namespace ClassTree

variable {c : ClassTree} {s : Subroutine}

theorem frame_declares (hclass : (Scope.empty.declare c.declarations).1.fault = none)
    (hs : (c.declared s).1.fault = none) {x : String} (hx : x ≠ "this") :
    (c.frame s).declares x = c.declares s x := by
  rw [Frame.declares, frame_lookup? hclass hs hx, Option.isSome_map, meaning?_isSome]

/-- Mentions make the same offences wherever the same variables are declared. -/
theorem offenceIn?_congr {p q : String → Bool} {ms : List Mention}
    (h : ∀ n, .name .variable n ∈ ms → p n.text = q n.text) :
    offenceIn? p ms = offenceIn? q ms := by
  induction ms with
  | nil => rfl
  | cons m ms ih =>
      rw [offenceIn?_cons, offenceIn?_cons, ih fun n hn => h n (List.mem_cons_of_mem _ hn)]
      congr 1
      match m, h with
      | .name .variable n, h => simp only [Mention.offence?, h n List.mem_cons_self]
      | .name .declared _, _ | .name .receiver _, _ | .name .callee _, _ => rfl
      | .number _, _ | .text _ _, _ => rfl

theorem offenceIn?_declaredMentions (p : String → Bool) (names : List Name) :
    offenceIn? p (declaredMentions names) = none :=
  List.findSome?_eq_none_iff.mpr fun m hm => by
    obtain ⟨n, -, rfl⟩ := List.mem_map.mp hm
    rfl

/-- No name is that of the hidden argument of a method. -/
def NeverThis (c : ClassTree) : Prop :=
  ∀ s ∈ c.subroutines, ∀ role n, .name role n ∈ s.mentions → n.text ≠ "this"

/-- A subroutine is stopped at its first offence. -/
theorem functionCode_fault (o : Options) (hthis : c.NeverThis)
    (hclass : (Scope.empty.declare c.declarations).1.fault = none) (hs : s ∈ c.subroutines) :
    (c.functionCode o s).fault = (c.subroutineOffences s).head? := by
  have hdeclared : (c.declared s).1.fault = (overflows s.kind.hidden s.declarations).head? := by
    rw [← s.kind.count_scope c.name.text]
    exact declare_fault_eq_head? _ _
  rw [functionCode, Trail.fault_append, Trail.fault_of_append, subroutineOffences,
    List.head?_append, ← hdeclared]
  rcases hfault : (c.declared s).1.fault with _ | e
  · have hbody : (c.bodyCode o s).fault =
        offenceIn? (c.frame s).declares (blockMentions s.body.block) := emitBlock_stops o _ _
    have hsame : offenceIn? (c.frame s).declares (blockMentions s.body.block) =
        offenceIn? (c.declares s) s.mentions := by
      rw [Subroutine.mentions, offenceIn?_cons, offenceIn?_append, offenceIn?_declaredMentions]
      refine offenceIn?_congr fun n hn => frame_declares hclass hfault (hthis s hs .variable n ?_)
      exact List.mem_cons_of_mem _ (List.mem_append_right _ hn)
    rw [hbody, hsame, offenceIn?, ← List.head?_filterMap]
  · rfl

/-- The output of a class is stopped at the first offence of the class. -/
theorem output_fault (o : Options) (hthis : c.NeverThis) :
    (c.output o).fault = c.offences.head? := by
  rw [output_eq, Trail.fault_append, declare_fault_eq_head?, Scope.count_empty, offences,
    List.head?_append]
  rcases hclass : (overflows (fun _ => 0) c.declarations).head? with _ | e
  · have hdeclared : (Scope.empty.declare c.declarations).1.fault = none := by
      rw [declare_fault_eq_head?, Scope.count_empty, hclass]
    have hjoin : ∀ ss : List Subroutine, (∀ s ∈ ss, s ∈ c.subroutines) →
        (Trail.join (ss.map (c.functionCode o))).fault =
          (ss.flatMap c.subroutineOffences).head? := by
      intro ss hss
      induction ss with
      | nil => rfl
      | cons s ss ih =>
          obtain ⟨hs, hss⟩ := List.forall_mem_cons.mp hss
          rw [List.map_cons, Trail.join_cons, Trail.fault_append,
            functionCode_fault o hthis hdeclared hs, ih hss, List.flatMap_cons, List.head?_append]
    rw [hjoin c.subroutines fun _ hs => hs]
  · rfl

end ClassTree

/-! ## What makes an offence -/

/-- The offences that a class can have, each with the place where it is met. A string constant with
several characters that are too large makes one offence, for the first of them. -/
inductive IsOffence (c : ClassTree) : Complaint → Prop
  | classVariable {before after : List Declaration} {d : Declaration} :
      c.declarations = before ++ d :: after →
      maxVariables ≤ before.countP (fun e => e.kind == d.kind) →
      IsOffence c ⟨.meaning (.tooManyVariables d.kind), d.name.span.start⟩
  | subroutineVariable {s : Subroutine} {before after : List Declaration} {d : Declaration} :
      s ∈ c.subroutines → s.declarations = before ++ d :: after →
      maxVariables ≤ s.kind.hidden d.kind + before.countP (fun e => e.kind == d.kind) →
      IsOffence c ⟨.meaning (.tooManyVariables d.kind), d.name.span.start⟩
  | undeclared {s : Subroutine} {n : Name} :
      s ∈ c.subroutines → .name .variable n ∈ s.mentions →
      (∀ d ∈ s.declarations ++ c.declarations, d.name.text ≠ n.text) →
      IsOffence c ⟨.meaning (.undefinedVariable n.text), n.span.start⟩
  | character {s : Subroutine} {contents : String} {span : Span} {x : Char}
      {before after : List Char} :
      s ∈ c.subroutines → .text contents span ∈ s.mentions →
      contents.toList = before ++ x :: after → (∀ y ∈ before, y.toNat ≤ maxConstant) →
      maxConstant < x.toNat → IsOffence c ⟨.meaning (.characterOutOfRange x), span.start⟩
  | length {s : Subroutine} {contents : String} {span : Span} :
      s ∈ c.subroutines → .text contents span ∈ s.mentions →
      (∀ y ∈ contents.toList, y.toNat ≤ maxConstant) → maxConstant < contents.toList.length →
      IsOffence c ⟨.meaning (.textTooLong contents.toList.length), span.start⟩

theorem mem_overflows_iff {taken : VariableKind → Nat} {ds : List Declaration} {e : Complaint} :
    e ∈ overflows taken ds ↔ ∃ before after d, ds = before ++ d :: after ∧
      maxVariables ≤ taken d.kind + before.countP (fun e => e.kind == d.kind) ∧
      e = ⟨.meaning (.tooManyVariables d.kind), d.name.span.start⟩ := by
  simp only [overflows, List.mem_map, List.mem_filter, Prod.exists, mem_numbered_iff]
  constructor
  · rintro ⟨d, n, ⟨⟨before, after, hds, rfl⟩, hfits⟩, rfl⟩
    exact ⟨before, after, d, hds, by simpa [fits] using hfits, rfl⟩
  · rintro ⟨before, after, d, hds, hle, rfl⟩
    exact ⟨d, _, ⟨⟨before, after, hds, rfl⟩, by simpa [fits] using hle⟩, rfl⟩

/-- What is wrong with a string constant. -/
theorem offence?_text_eq_some_iff {p : String → Bool} {contents : String} {span : Span}
    {e : Complaint} : (Mention.text contents span).offence? p = some e ↔
      (∃ before after x, contents.toList = before ++ x :: after ∧
        (∀ y ∈ before, y.toNat ≤ maxConstant) ∧ maxConstant < x.toNat ∧
        e = ⟨.meaning (.characterOutOfRange x), span.start⟩) ∨
      (∀ y ∈ contents.toList, y.toNat ≤ maxConstant) ∧ maxConstant < contents.toList.length ∧
        e = ⟨.meaning (.textTooLong contents.toList.length), span.start⟩ := by
  rw [Mention.offence?]
  cases hfind : contents.toList.find? fun c => maxConstant < c.toNat with
  | none =>
      have hall : ∀ y ∈ contents.toList, y.toNat ≤ maxConstant := by
        simpa using hfind
      constructor
      · intro h
        dsimp only at h
        split at h
        · next hlength =>
          cases h
          exact .inr ⟨hall, hlength, rfl⟩
        · cases h
      · rintro (⟨before, after, x, hcontents, -, hx, -⟩ | ⟨-, hlength, rfl⟩)
        · exact absurd (hall x (by simp [hcontents])) (Nat.not_le.mpr hx)
        · exact if_pos hlength
  | some x =>
      obtain ⟨hx, before, after, hcontents, hbefore⟩ := List.find?_eq_some_iff_append.mp hfind
      constructor
      · rintro ⟨⟩
        exact .inl ⟨before, after, x, hcontents, by simpa using hbefore, by simpa using hx, rfl⟩
      · rintro (⟨before', after', x', hcontents', hbefore', hx', rfl⟩ | ⟨hall, -, -⟩)
        · have hfind' : (contents.toList.find? fun c => maxConstant < c.toNat) = some x' :=
            List.find?_eq_some_iff_append.mpr
              ⟨by simpa using hx', before', after', hcontents', by simpa using hbefore'⟩
          cases hfind.symm.trans hfind'
          rfl
        · exact absurd (hall x (by simp [hcontents])) (by simpa using hx)

theorem ClassTree.declares_eq_false_iff {c : ClassTree} {s : Subroutine} {x : String} :
    c.declares s x = false ↔ ∀ d ∈ s.declarations ++ c.declarations, d.name.text ≠ x := by
  rw [declares, List.any_eq_false]
  simp only [beq_iff_eq, ne_eq]

/-- The listed offences are all that there are. -/
theorem mem_offences_iff {c : ClassTree} {e : Complaint} : e ∈ c.offences ↔ IsOffence c e := by
  rw [ClassTree.offences, List.mem_append, List.mem_flatMap, mem_overflows_iff]
  constructor
  · rintro (⟨before, after, d, hds, hle, rfl⟩ | ⟨s, hs, he⟩)
    · exact .classVariable hds (by simpa using hle)
    · rcases List.mem_append.mp he with he | he
      · obtain ⟨before, after, d, hds, hle, rfl⟩ := mem_overflows_iff.mp he
        exact .subroutineVariable hs hds hle
      · obtain ⟨m, hm, he⟩ := List.mem_filterMap.mp he
        match m, hm, he with
        | .name .variable n, hm, he =>
            simp only [Mention.offence?] at he
            split at he
            · cases he
            · next hnot =>
              cases he
              exact .undeclared hs hm
                (ClassTree.declares_eq_false_iff.mp (Bool.eq_false_iff.mpr hnot))
        | .text contents span, hm, he =>
            rcases offence?_text_eq_some_iff.mp he with
              ⟨before, after, x, hcontents, hbefore, hx, rfl⟩ | ⟨hall, hlength, rfl⟩
            · exact .character hs hm hcontents hbefore hx
            · exact .length hs hm hall hlength
        | .name .declared _, _, he | .name .receiver _, _, he | .name .callee _, _, he => cases he
        | .number _, _, he => cases he
  · intro h
    have hmention {s : Subroutine} {m : Mention} (hs : s ∈ c.subroutines) (hm : m ∈ s.mentions)
        (he : m.offence? (c.declares s) = some e) :
        ∃ s ∈ c.subroutines, e ∈ c.subroutineOffences s :=
      ⟨s, hs, List.mem_append_right _ (List.mem_filterMap.mpr ⟨m, hm, he⟩)⟩
    cases h with
    | classVariable hds hle => exact .inl ⟨_, _, _, hds, by simpa using hle, rfl⟩
    | subroutineVariable hs hds hle =>
        exact .inr ⟨_, hs, List.mem_append_left _ (mem_overflows_iff.mpr ⟨_, _, _, hds, hle, rfl⟩)⟩
    | undeclared hs hm hnot =>
        refine .inr (hmention hs hm ?_)
        rw [Mention.offence?, ClassTree.declares_eq_false_iff.mpr hnot]
        rfl
    | character hs hm hcontents hbefore hx =>
        exact .inr (hmention hs hm
          (offence?_text_eq_some_iff.mpr (.inl ⟨_, _, _, hcontents, hbefore, hx, rfl⟩)))
    | length hs hm hall hlength =>
        exact .inr (hmention hs hm (offence?_text_eq_some_iff.mpr (.inr ⟨hall, hlength, rfl⟩)))

end JackCompiler
