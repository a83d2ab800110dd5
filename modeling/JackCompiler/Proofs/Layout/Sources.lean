import JackCompiler.Proofs.Declarations.Outcomes
import JackCompiler.Proofs.Layout.Productions
import JackCompiler.Proofs.Output.Constants
import JackCompiler.Proofs.Relabelling.Classes

/-!
# The layout of a source

Two sources with the same kinds and texts of tokens differ in blanks and comments only. A function
on offsets moves the tokens of the one to those of the other. What is read from the two sources
differs by this function, and so does what is wrong with them, while the code has no offsets in it.
-/

namespace JackCompiler

open Production

/-- The kinds and texts of the tokens of a source. -/
def lexemesOf (source : String) : List (Kind × String) :=
  (tokensOf source).map fun t => (t.kind, t.text)

/-! ## Moving tokens -/

namespace Decomposes

variable {before cs : List Char} {ts : List Token}

theorem size_eq (h : Decomposes before cs ts) :
    ∀ t ∈ ts, t.span.size = byteCount t.text.toList := by
  induction h with
  | finish => exact List.forall_mem_singleton.mpr rfl
  | token _ _ _ ih =>
      refine List.forall_mem_cons.mpr ⟨?_, ih⟩
      rw [Token.behind, String.toList_ofList]

end Decomposes

theorem Token.eq_moved {φ : Nat → Nat} {t u : Token} (hkind : u.kind = t.kind)
    (htext : u.text = t.text) (hstart : u.span.start = φ t.span.start)
    (hsize : u.span.size = t.span.size) : u = t.moved φ := by
  obtain ⟨_, _, _, _⟩ := u
  obtain ⟨_, _, _, _⟩ := t
  dsimp only at hkind htext hstart hsize
  rw [hkind, htext, hstart, hsize]
  rfl

/-- Tokens with the same kinds and texts are moved to each other. -/
theorem exists_moved {ts us : List Token}
    (h : us.map (fun u => (u.kind, u.text)) = ts.map fun t => (t.kind, t.text))
    (hts : ∀ t ∈ ts, t.span.size = byteCount t.text.toList)
    (hus : ∀ u ∈ us, u.span.size = byteCount u.text.toList)
    (hstarts : ts.Pairwise fun t u => t.span.start < u.span.start) :
    ∃ φ, us = ts.map (Token.moved φ) := by
  induction ts generalizing us with
  | nil => exact ⟨id, List.map_eq_nil_iff.mp h⟩
  | cons t ts ih =>
      obtain ⟨u, us, rfl, hu, hrest⟩ := List.map_eq_cons_iff.mp h
      obtain ⟨hkind, htext⟩ := Prod.mk.inj hu
      obtain ⟨ht, hts⟩ := List.forall_mem_cons.mp hts
      obtain ⟨hu, hus⟩ := List.forall_mem_cons.mp hus
      obtain ⟨hlt, hstarts⟩ := List.pairwise_cons.mp hstarts
      obtain ⟨φ, rfl⟩ := ih hrest hts hus hstarts
      -- No later token starts where this one does, so where this one starts `φ` is free.
      refine ⟨Function.update φ t.span.start u.span.start, List.cons_eq_cons.mpr ⟨?_, ?_⟩⟩
      · refine Token.eq_moved hkind htext ?_ ?_
        · rw [Function.update_self]
        · rw [hu, ht, htext]
      · refine List.map_congr_left fun t' ht' => Token.eq_moved rfl rfl ?_ rfl
        rw [Function.update_of_ne (hlt t' ht').ne']
        rfl

theorem tokensOf_moved {a b : String} (ha : faultOf? a = none) (hb : faultOf? b = none)
    (h : lexemesOf a = lexemesOf b) : ∃ φ, tokensOf b = (tokensOf a).map (Token.moved φ) := by
  have hdecomposes := decomposes_iff.mpr ⟨rfl, ha⟩
  exact exists_moved h.symm hdecomposes.size_eq (decomposes_iff.mpr ⟨rfl, hb⟩).size_eq
    hdecomposes.starts_ascending

/-! ## Reading and compiling -/

section Moved

variable {φ : Nat → Nat} {a b : String}

/-- From sources with moved tokens the same is read, or the same token is complained about. -/
theorem readClass_moved (ha : faultOf? a = none) (hb : faultOf? b = none)
    (h : tokensOf b = (tokensOf a).map (Token.moved φ)) :
    (readClass b).1 = ((readClass a).1.map (ClassTree.relabelled (.moving φ))).mapError
      (Relabelling.moving φ).complaint := by
  obtain ⟨w, hslide, hw, hahead⟩ := exists_slide ha
  obtain ⟨w', hslide', hw', hahead'⟩ := exists_slide hb
  rw [h] at hahead'
  have hprevious : w'.previous = w.previous.map (Token.moved φ) := by
    rw [hw.previous, hw'.previous]
    rfl
  have halike : w.Alike φ (tokensOf a) w' := ⟨hw.ready, hw'.ready, hahead, hahead', hprevious⟩
  have hmatched := wholeClass_tracks φ (tokensOf a).length halike (Nat.le_refl _)
  rw [readClass, readClass, classTree_eq rfl, classTree_eq rfl, bind_ok hslide, bind_ok hslide']
  generalize (classMembers >>= classEnd) w = r at hmatched ⊢
  generalize (classMembers >>= classEnd) w' = r' at hmatched ⊢
  cases hmatched <;> rfl

/-- The whole of a code, or the complaint that stops it. -/
def Code.whole (t : Code) : Except Complaint (List Instruction) :=
  match t.fault with
  | none => .ok t.items
  | some c => .error c

theorem Code.whole_relabelled (r : Relabelling) (t : Code) :
    (Code.relabelled r t).whole = t.whole.mapError r.complaint := by
  obtain ⟨_, _ | _⟩ := t <;> rfl

theorem Code.whole_eq_error_iff {t : Code} {c : Complaint} :
    t.whole = .error c ↔ t.fault = some c := by
  obtain ⟨_, _ | _⟩ := t <;> simp [whole]

/-- The code of a source, or what is wrong with the source. -/
def codeOf (o : Options) (source : String) : Except Complaint (List Instruction) :=
  (readClass source).1.bind fun tree => (tree.output o).whole

theorem compile_outcome_eq (o : Options) (source : String) : (compile o source).outcome =
    ((codeOf o source).map listing).mapError (Complaint.failure · source) := by
  unfold compile Report.compiled codeOf parse
  rcases readClass source with ⟨c | tree, records⟩
  · rfl
  · have houtput : tree.output o = (Generator.new.compile o tree).1.instructions := rfl
    simp only [Except.bind, houtput, Code.whole, Trail.instructions]
    cases (Generator.new.compile o tree).1.fault <;> rfl

theorem codeOf_moved (ha : faultOf? a = none) (hb : faultOf? b = none)
    (h : tokensOf b = (tokensOf a).map (Token.moved φ)) (o : Options) :
    codeOf o b = (codeOf o a).mapError (Relabelling.moving φ).complaint := by
  rw [codeOf, codeOf, readClass_moved ha hb h]
  rcases (readClass a).1 with c | tree
  · rfl
  · have hallowed : (Relabelling.moving φ).Allowed tree :=
      ⟨Function.injective_id, rfl, fun _ _ _ _ _ => rfl⟩
    have houtput := ClassTree.output_relabelled (o := o) hallowed
    exact (congrArg Code.whole houtput).trans (Code.whole_relabelled _ _)

/-- What is wrong with a source that can be scanned is wrong at one of its tokens. -/
theorem codeOf_error_token (ha : faultOf? a = none) {o : Options} {c : Complaint}
    (h : codeOf o a = .error c) : ∃ t ∈ tokensOf a, t.span.start = c.offset := by
  have hanswer := readClass_answer a
  rw [codeOf] at h
  rcases hr : (readClass a).1 with c' | tree <;> rw [hr] at h hanswer
  · cases h
    cases hanswer with
    | misfit hts _ _ _ => exact ⟨_, by rw [hts]; simp, rfl⟩
    | lexical he => rw [ha] at he; cases he
  · have hparse := parse_of_ok hr
    have hfault := Code.whole_eq_error_iff.mp h
    rw [tree.output_fault o (neverThis_of_parse hparse)] at hfault
    have hoffence := mem_offences_iff.mp (List.mem_of_head? hfault)
    exact hoffence.exists_token (parse_ok_writtenIn hparse).2

end Moved

theorem Relabelling.cause_moving (φ : Nat → Nat) (c : Cause) :
    (Relabelling.moving φ).cause c = c := by
  rcases c with _ | _ | (_ | _ | _ | _) <;> rfl

/-- A complaint about a token of a source is located where the token stands. -/
theorem Complaint.failure_of_token {source : String} {t : Token} {c : Complaint}
    (ht : t ∈ tokensOf source) (hstart : t.span.start = c.offset) :
    ∃ l, t.StandsAt source l ∧ c.failure source = .diagnosed ⟨c.cause, l⟩ := by
  obtain ⟨l, hl, hstands⟩ := (tokensOf_scans source).standsAt (.refl _) ht
  refine ⟨l, hstands, ?_⟩
  rw [failure, diagnosis?, ← hstart, hl]
  rfl

/-- The layout of a source does not show. Two sources that can be scanned and have the same kinds
and texts of tokens are compiled to the same text, or refused for the same cause at the same token,
each at the place where it has this token. -/
theorem compile_layout {a b : String} (ha : faultOf? a = none) (hb : faultOf? b = none)
    (h : lexemesOf a = lexemesOf b) (o : Options) :
    (∃ text, (compile o a).outcome = .ok text ∧ (compile o b).outcome = .ok text) ∨
      ∃ (cause : Cause) (k : Nat) (t u : Token) (l m : Location),
        (tokensOf a)[k]? = some t ∧ (tokensOf b)[k]? = some u ∧ t.StandsAt a l ∧ u.StandsAt b m ∧
        (compile o a).outcome = .error (.diagnosed ⟨cause, l⟩) ∧
        (compile o b).outcome = .error (.diagnosed ⟨cause, m⟩) := by
  obtain ⟨φ, hmoved⟩ := tokensOf_moved ha hb h
  rw [compile_outcome_eq, compile_outcome_eq, codeOf_moved ha hb hmoved]
  rcases hcode : codeOf o a with c | code
  · obtain ⟨t, ht, hstart⟩ := codeOf_error_token ha hcode
    obtain ⟨k, hk⟩ := List.getElem?_of_mem ht
    have hk' : (tokensOf b)[k]? = some (t.moved φ) := by
      rw [hmoved, List.getElem?_map, hk]
      rfl
    have hstart' : (t.moved φ).span.start = ((Relabelling.moving φ).complaint c).offset :=
      congrArg φ hstart
    have hcause : ((Relabelling.moving φ).complaint c).cause = c.cause :=
      Relabelling.cause_moving φ c.cause
    obtain ⟨l, hl, hfailure⟩ := Complaint.failure_of_token ht hstart
    obtain ⟨m, hm, hfailure'⟩ := Complaint.failure_of_token (List.mem_of_getElem? hk') hstart'
    rw [hcause] at hfailure'
    exact .inr ⟨c.cause, k, t, t.moved φ, l, m, hk, hk', hl, hm, congrArg Except.error hfailure,
      congrArg Except.error hfailure'⟩
  · exact .inl ⟨listing code, rfl, rfl⟩

/-- A class on one line with no blank that is not needed. -/
def tightSource : String :=
  "class A\x7bfunction int f(int n)\x7bdo g(\"a b\",-n);return k;\x7d\x7d"

/-- The same class with comments, line breaks and blanks. -/
def looseSource : String :=
  "// A class\nclass A \x7b\r\n\tfunction/**/int f ( int n ) \x7b do g(\"a b\", - n);\n" ++
    " /* k; */ return\nk ; \x7d\n\x7d // end"

theorem looseSource_layout : faultOf? tightSource = none ∧ faultOf? looseSource = none ∧
    lexemesOf tightSource = lexemesOf looseSource ∧ ∀ o,
      (∃ text, (compile o tightSource).outcome = .ok text ∧
        (compile o looseSource).outcome = .ok text) ∨
      ∃ (cause : Cause) (k : Nat) (t u : Token) (l m : Location),
        (tokensOf tightSource)[k]? = some t ∧ (tokensOf looseSource)[k]? = some u ∧
        t.StandsAt tightSource l ∧ u.StandsAt looseSource m ∧
        (compile o tightSource).outcome = .error (.diagnosed ⟨cause, l⟩) ∧
        (compile o looseSource).outcome = .error (.diagnosed ⟨cause, m⟩) := by
  have htight : faultOf? tightSource = none := by decide +kernel
  have hloose : faultOf? looseSource = none := by decide +kernel
  have hlexemes : lexemesOf tightSource = lexemesOf looseSource := by decide +kernel
  exact ⟨htight, hloose, hlexemes, compile_layout htight hloose hlexemes⟩

end JackCompiler
