import JackCompiler.Proofs.Declarations.Scopes
import Mathlib.Data.List.Induction

/-!
# Histories of a scope

A scope is asked to define variables and to forget all of them, in any order and also after it has
refused. Whatever it was asked, its counters agree with the variables that it holds, the variables
of each kind are numbered from zero without a gap, and a look-up finds the first variable that was
defined under the name since the scope was last emptied.

## Implementation notes

The reference is the list of definitions asked for since the last reset, with the numbers that they
would have without a limit. A definition was refused exactly if its number does not fit, since by
then the earlier ones of its kind have taken all numbers.
-/

namespace JackCompiler

/-- What a scope is asked: to define a variable, or to forget all variables. -/
inductive ScopeRequest where
  | define (d : Declaration)
  | reset

/-- The definitions asked for since the last reset, in order. -/
def sinceReset (history : List ScopeRequest) : List Declaration :=
  history.foldl (fun ds r => match r with | .define d => ds ++ [d] | .reset => []) []

theorem sinceReset_concat_define (history : List ScopeRequest) (d : Declaration) :
    sinceReset (history ++ [.define d]) = sinceReset history ++ [d] := by
  rw [sinceReset, List.foldl_append]
  rfl

theorem sinceReset_concat_reset (history : List ScopeRequest) :
    sinceReset (history ++ [.reset]) = [] := by
  rw [sinceReset, List.foldl_append]
  rfl

theorem numbered_concat (taken : VariableKind → Nat) (ds : List Declaration) (d : Declaration) :
    numbered taken (ds ++ [d]) =
      numbered taken ds ++ [(d, taken d.kind + ds.countP fun e => e.kind == d.kind)] := by
  have hinit : (ds.mapIdx fun i e =>
      (e, taken e.kind + ((ds ++ [d]).take i).countP fun a => a.kind == e.kind)) =
        numbered taken ds := by
    apply List.mapIdx_eq_mapIdx_iff.mpr
    intro i hi
    rw [List.take_append_of_le_length (Nat.le_of_lt hi)]
  rw [numbered, List.mapIdx_concat, hinit, List.take_left]

/-- The variables of definitions, those of them that find a number left. -/
def definedVariables (ds : List Declaration) : List Variable :=
  ((numbered (fun _ => 0) ds).filter fits).map fun p => p.1.variable p.2

namespace Scope

/-- Carry out a request. -/
def perform (s : Scope) : ScopeRequest → Scope
  | .define d => (s.define d.name.text d.type d.kind).2
  | .reset => empty

/-- The scope that a history leaves, beginning without variables. -/
def ofHistory (history : List ScopeRequest) : Scope :=
  history.foldl perform empty

theorem ofHistory_concat (history : List ScopeRequest) (r : ScopeRequest) :
    ofHistory (history ++ [r]) = (ofHistory history).perform r :=
  List.foldl_concat _ _ _ _

theorem entries_define {s : Scope} {name : String} {type : VarType} {kind : VariableKind}
    (h : s.count kind < maxVariables) : (s.define name type kind).2.entries.toList =
      s.entries.toList ++ [⟨name, type, kind, UInt16.ofNat (s.count kind)⟩] := by
  rw [define_of_lt h, Array.toList_push]

theorem count_define {s : Scope} {name : String} {type : VarType} {kind : VariableKind}
    (h : s.count kind < maxVariables) (k : VariableKind) :
    (s.define name type kind).2.count k = if k = kind then s.count k + 1 else s.count k := by
  rw [define_of_lt h, count_increment, Function.update_apply]
  by_cases hk : k = kind
  · rw [if_pos hk, if_pos hk, hk]
    rfl
  · rw [if_neg hk, if_neg hk]
    rfl

/-! ## Counters and numbers -/

/-- The counters and the numbers of a scope agree with the variables that it holds. -/
structure Consistent (s : Scope) : Prop where
  count_eq : ∀ k, s.count k = s.entries.toList.countP (·.kind == k)
  indices : ∀ k, (s.entries.toList.filter (·.kind == k)).map (·.index.toNat) =
    List.range (s.count k)
  count_le : ∀ k, s.count k ≤ maxVariables

theorem consistent_empty : empty.Consistent where
  count_eq k := VariableCounts.get_zero k
  indices k := by
    rw [count_empty]
    rfl
  count_le k := by
    rw [count_empty]
    exact Nat.zero_le _

theorem Consistent.define {s : Scope} (h : s.Consistent) (name : String) (type : VarType)
    (kind : VariableKind) : (s.define name type kind).2.Consistent := by
  by_cases hlt : s.count kind < maxVariables
  · have hindex : (UInt16.ofNat (s.count kind)).toNat = s.count kind :=
      UInt16.toNat_ofNat_of_lt' (Nat.lt_trans hlt (by decide))
    constructor
    · intro k
      rw [count_define hlt, entries_define hlt, List.countP_append, ← h.count_eq]
      by_cases hk : k = kind
      · simp [hk]
      · simp [hk, Ne.symm hk]
    · intro k
      rw [count_define hlt, entries_define hlt, List.filter_append, List.map_append, h.indices]
      by_cases hk : k = kind
      · subst hk
        rw [if_pos rfl, List.range_succ]
        simp [hindex]
      · simp [hk, Ne.symm hk]
    · intro k
      rw [count_define hlt]
      by_cases hk : k = kind
      · rw [if_pos hk, hk]
        exact hlt
      · rw [if_neg hk]
        exact h.count_le k
  · rw [define_of_not_lt hlt]
    exact h

theorem Consistent.perform {s : Scope} (h : s.Consistent) (r : ScopeRequest) :
    (s.perform r).Consistent := by
  cases r with
  | define d => exact h.define _ _ _
  | reset => exact consistent_empty

/-- Whatever a scope was asked, it is consistent. -/
theorem ofHistory_consistent (history : List ScopeRequest) : (ofHistory history).Consistent := by
  induction history using List.reverseRecOn with
  | nil => exact consistent_empty
  | append_singleton history r ih =>
      rw [ofHistory_concat]
      exact ih.perform r

/-! ## Variables held -/

theorem definedVariables_concat (ds : List Declaration) (d : Declaration) :
    definedVariables (ds ++ [d]) = definedVariables ds ++
      if ds.countP (·.kind == d.kind) < maxVariables then
        [d.variable (ds.countP (·.kind == d.kind))]
      else [] := by
  rw [definedVariables, numbered_concat, Nat.zero_add, List.filter_append, List.map_append]
  congr 1
  by_cases h : ds.countP (·.kind == d.kind) < maxVariables
  · have hfits : fits (d, ds.countP (·.kind == d.kind)) = true := by simpa [fits] using h
    rw [if_pos h, List.filter_cons_of_pos hfits]
    rfl
  · have hfits : ¬fits (d, ds.countP (·.kind == d.kind)) = true := by simpa [fits] using h
    rw [if_neg h, List.filter_cons_of_neg hfits]
    rfl

/-- A scope holds the variables of definitions, as far as they found a number left, and it has
counted as many of each kind as were asked for, up to the limit. -/
structure Answers (s : Scope) (ds : List Declaration) : Prop where
  entries : s.entries.toList = definedVariables ds
  counts : ∀ k, s.count k = min (ds.countP (·.kind == k)) maxVariables

theorem answers_empty : empty.Answers [] where
  entries := rfl
  counts k := by
    rw [count_empty]
    exact (Nat.zero_min _).symm

theorem Answers.define {s : Scope} {ds : List Declaration} (h : s.Answers ds) (d : Declaration) :
    (s.define d.name.text d.type d.kind).2.Answers (ds ++ [d]) := by
  have hsame : [d].countP (·.kind == d.kind) = 1 := by simp
  have hother : ∀ k, k ≠ d.kind → [d].countP (·.kind == k) = 0 := by
    intro k hk
    simp [Ne.symm hk]
  have hkind := h.counts d.kind
  by_cases hlt : ds.countP (·.kind == d.kind) < maxVariables
  · have hnumber : s.count d.kind = ds.countP (·.kind == d.kind) := by omega
    have hroom : s.count d.kind < maxVariables := by omega
    constructor
    · rw [entries_define hroom, definedVariables_concat, if_pos hlt, h.entries, hnumber]
      rfl
    · intro k
      rw [count_define hroom, List.countP_append]
      by_cases hk : k = d.kind
      · subst hk
        rw [if_pos rfl, hsame]
        omega
      · rw [if_neg hk, hother k hk]
        exact h.counts k
  · have hfull : ¬s.count d.kind < maxVariables := by omega
    rw [define_of_not_lt hfull]
    constructor
    · rw [definedVariables_concat, if_neg hlt, List.append_nil]
      exact h.entries
    · intro k
      rw [List.countP_append]
      by_cases hk : k = d.kind
      · subst hk
        rw [hsame]
        dsimp only
        omega
      · rw [hother k hk]
        exact h.counts k

/-- What a scope holds are the variables of the definitions since the last reset. -/
theorem ofHistory_answers (history : List ScopeRequest) :
    (ofHistory history).Answers (sinceReset history) := by
  induction history using List.reverseRecOn with
  | nil => exact answers_empty
  | append_singleton history r ih =>
      rw [ofHistory_concat]
      cases r with
      | define d =>
          rw [sinceReset_concat_define]
          exact ih.define d
      | reset =>
          rw [sinceReset_concat_reset]
          exact answers_empty

/-! ## Look-ups -/

/-- The first definition of a name, with its number, among those since the last reset that found a
number left. -/
def firstDefined? (history : List ScopeRequest) (name : String) : Option (Declaration × Nat) :=
  ((numbered (fun _ => 0) (sinceReset history)).filter fits).find? (·.1.name.text == name)

theorem find?_ofHistory (history : List ScopeRequest) (name : String) :
    (ofHistory history).find? name =
      (firstDefined? history name).map fun p => p.1.variable p.2 := by
  rw [find?, ← Array.find?_toList, (ofHistory_answers history).entries, definedVariables,
    List.find?_map]
  rfl

theorem lt_of_firstDefined? {history : List ScopeRequest} {name : String} {p : Declaration × Nat}
    (h : firstDefined? history name = some p) : p.2 < maxVariables := by
  have hfits := (List.mem_filter.mp (List.mem_of_find?_eq_some h)).2
  simpa [fits] using hfits

/-- All look-ups answer for the same definition. -/
theorem lookups_ofHistory (history : List ScopeRequest) (name : String) :
    (ofHistory history).kindOf? name = (firstDefined? history name).map (·.1.kind) ∧
      (ofHistory history).typeOf? name = (firstDefined? history name).map (·.1.type) ∧
      ((ofHistory history).indexOf? name).map UInt16.toNat =
        (firstDefined? history name).map (·.2) := by
  rw [kindOf?, typeOf?, indexOf?, find?_ofHistory]
  cases hfirst : firstDefined? history name with
  | none => exact ⟨rfl, rfl, rfl⟩
  | some p =>
      have hlt := lt_of_firstDefined? hfirst
      refine ⟨rfl, rfl, congrArg some ?_⟩
      exact UInt16.toNat_ofNat_of_lt' (Nat.lt_trans hlt (by decide))

/-! ## Refusals -/

theorem define_fst_eq_none_iff {s : Scope} (h : s.Consistent) (name : String) (type : VarType)
    (kind : VariableKind) : (s.define name type kind).1 = none ↔
      s.entries.toList.countP (·.kind == kind) = maxVariables := by
  rw [← h.count_eq]
  have hle := h.count_le kind
  by_cases hlt : s.count kind < maxVariables
  · rw [define_of_lt hlt]
    simp only [reduceCtorEq, false_iff]
    exact Nat.ne_of_lt hlt
  · rw [define_of_not_lt hlt]
    simp only [true_iff]
    omega

theorem define_snd_of_eq_none {s : Scope} {name : String} {type : VarType} {kind : VariableKind}
    (h : (s.define name type kind).1 = none) : (s.define name type kind).2 = s := by
  by_cases hlt : s.count kind < maxVariables
  · rw [define_of_lt hlt] at h
    cases h
  · rw [define_of_not_lt hlt]

theorem define_of_eq_some {s : Scope} {name : String} {type : VarType} {kind : VariableKind}
    {v : Variable} (h : (s.define name type kind).1 = some v) :
    v = ⟨name, type, kind, UInt16.ofNat (s.count kind)⟩ ∧
      (s.define name type kind).2.entries.toList = s.entries.toList ++ [v] := by
  by_cases hlt : s.count kind < maxVariables
  · rw [define_of_lt hlt] at h
    obtain rfl := Option.some_inj.mp h
    exact ⟨rfl, entries_define hlt⟩
  · rw [define_of_not_lt hlt] at h
    cases h

/-- Whatever a scope was asked, its counters are the numbers of variables that it holds, at most the
limit for each kind, and the variables of a kind have the numbers from zero in the order of their
definition. All look-ups answer for the first definition of the name since the last reset, those
that were refused left out. A definition is refused exactly if its kind is full, and then nothing
changes and variables of other kinds can still be defined; otherwise the new variable comes last. -/
theorem ofHistory_invariant (history : List ScopeRequest) :
    let s := ofHistory history
    let held := s.entries.toList
    (∀ k, s.count k = held.countP (·.kind == k) ∧
      (held.filter (·.kind == k)).map (·.index.toNat) = List.range (s.count k) ∧
      s.count k ≤ maxVariables) ∧
    (∀ name, let first := firstDefined? history name
      s.find? name = first.map (fun p => p.1.variable p.2) ∧
      s.kindOf? name = first.map (·.1.kind) ∧ s.typeOf? name = first.map (·.1.type) ∧
      (s.indexOf? name).map UInt16.toNat = first.map (·.2)) ∧
    ∀ name type kind, let asked := s.define name type kind
      (asked.1 = none ↔ held.countP (·.kind == kind) = maxVariables) ∧
      (asked.1 = none → asked.2 = s ∧ ∀ name' type' kind',
        held.countP (·.kind == kind') < maxVariables →
          (asked.2.define name' type' kind').1 ≠ none) ∧
      ∀ v, asked.1 = some v → v = ⟨name, type, kind, UInt16.ofNat (s.count kind)⟩ ∧
        asked.2.entries.toList = held ++ [v] := by
  intro s held
  have hconsistent := ofHistory_consistent history
  refine ⟨fun k => ?_, fun name => ?_, fun name type kind => ?_⟩
  · exact ⟨hconsistent.count_eq k, hconsistent.indices k, hconsistent.count_le k⟩
  · exact ⟨find?_ofHistory history name, lookups_ofHistory history name⟩
  · refine ⟨define_fst_eq_none_iff hconsistent name type kind, fun hnone => ?_,
      fun v hv => define_of_eq_some hv⟩
    have hsame := define_snd_of_eq_none hnone
    refine ⟨hsame, fun name' type' kind' hlt => ?_⟩
    rw [hsame, ne_eq, define_fst_eq_none_iff hconsistent]
    exact Nat.ne_of_lt hlt

end Scope

end JackCompiler
