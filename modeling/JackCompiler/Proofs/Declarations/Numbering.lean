import JackCompiler.Emit.Declaration
import Mathlib.Data.List.TakeWhile
import Mathlib.Logic.Function.Basic

/-!
# Numbers of declared variables

A declaration takes the number of earlier ones of its kind in the same scope; in a method the
current object is counted before the parameters. Declaring the variables of a scope stops at the
first declaration whose number is too large, and otherwise leaves each of them in the scope with its
number, first declaration first.
-/

namespace JackCompiler

/-- Declarations with their numbers, given how many variables of each kind there are before. -/
def numbered (taken : VariableKind → Nat) (ds : List Declaration) : List (Declaration × Nat) :=
  ds.mapIdx fun i d => (d, taken d.kind + (ds.take i).countP fun e => e.kind == d.kind)

theorem numbered_nil (taken : VariableKind → Nat) : numbered taken [] = [] := rfl

/-- Behind a declaration its kind has one variable more. -/
theorem numbered_cons (taken : VariableKind → Nat) (d : Declaration) (ds : List Declaration) :
    numbered taken (d :: ds) =
      (d, taken d.kind) :: numbered (Function.update taken d.kind (taken d.kind + 1)) ds := by
  rw [numbered, numbered, List.mapIdx_cons]
  congr 1
  refine congrArg (List.mapIdx · ds) (funext fun i => funext fun e => ?_)
  rw [List.take_succ_cons, List.countP_cons, Function.update_apply]
  by_cases h : e.kind = d.kind
  · simp [h, Nat.add_assoc, Nat.add_comm 1]
  · simp [h, Ne.symm h]

theorem map_fst_numbered (taken : VariableKind → Nat) (ds : List Declaration) :
    (numbered taken ds).map Prod.fst = ds := by
  induction ds generalizing taken with
  | nil => rfl
  | cons d ds ih => rw [numbered_cons, List.map_cons, ih]

theorem mem_of_mem_numbered {taken : VariableKind → Nat} {ds : List Declaration}
    {p : Declaration × Nat} (hp : p ∈ numbered taken ds) : p.1 ∈ ds := by
  have hmem := List.mem_map_of_mem (f := Prod.fst) hp
  rwa [map_fst_numbered] at hmem

/-- The number of a declaration counts the earlier ones of its kind. -/
theorem mem_numbered_iff {taken : VariableKind → Nat} {ds : List Declaration} {d : Declaration}
    {n : Nat} : (d, n) ∈ numbered taken ds ↔ ∃ before after, ds = before ++ d :: after ∧
      n = taken d.kind + before.countP fun e => e.kind == d.kind := by
  rw [numbered, List.mem_mapIdx]
  constructor
  · rintro ⟨i, hi, hd⟩
    obtain ⟨rfl, rfl⟩ := Prod.mk.inj hd
    exact ⟨ds.take i, ds.drop (i + 1), by simp, rfl⟩
  · rintro ⟨before, after, rfl, rfl⟩
    exact ⟨before.length, by simp, by simp⟩

theorem le_of_mem_numbered {taken : VariableKind → Nat} {ds : List Declaration}
    {p : Declaration × Nat} (hp : p ∈ numbered taken ds) : taken p.1.kind ≤ p.2 := by
  obtain ⟨before, after, -, hn⟩ := mem_numbered_iff.mp hp
  rw [hn]
  exact Nat.le_add_right _ _

theorem lt_of_mem_numbered {taken : VariableKind → Nat} {ds : List Declaration}
    {p : Declaration × Nat} (hp : p ∈ numbered taken ds) :
    p.2 < taken p.1.kind + ds.countP fun e => e.kind == p.1.kind := by
  obtain ⟨before, after, hds, hn⟩ := mem_numbered_iff.mp hp
  have hself : (p.1.kind == p.1.kind) = true := beq_self_eq_true _
  rw [hn, hds, List.countP_append, List.countP_cons, if_pos hself]
  omega

/-- Declarations of the same kind have different numbers. -/
theorem numbered_nodup (taken : VariableKind → Nat) (ds : List Declaration) :
    ((numbered taken ds).map fun p => (p.1.kind, p.2)).Nodup := by
  induction ds generalizing taken with
  | nil => exact List.nodup_nil
  | cons d ds ih =>
      rw [numbered_cons, List.map_cons, List.nodup_cons]
      refine ⟨fun hmem => ?_, ih _⟩
      obtain ⟨p, hp, heq⟩ := List.mem_map.mp hmem
      obtain ⟨hkind, hnumber⟩ := Prod.mk.inj heq
      have hle := le_of_mem_numbered hp
      rw [hkind, Function.update_self, hnumber] at hle
      exact Nat.not_succ_le_self _ hle

/-- The variable of a declaration with its number. -/
def Declaration.variable (d : Declaration) (n : Nat) : Variable :=
  ⟨d.name.text, d.type, d.kind, UInt16.ofNat n⟩

/-- The complaint that no number is left for a declaration. -/
def Declaration.overflow (d : Declaration) : Complaint :=
  ⟨.meaning (.tooManyVariables d.kind), d.name.span.start⟩

/-- A number that a variable can have. -/
def fits (p : Declaration × Nat) : Bool :=
  p.2 < maxVariables

namespace Scope

theorem define_of_lt {s : Scope} {name : String} {type : VarType} {kind : VariableKind}
    (h : s.count kind < maxVariables) :
    s.define name type kind =
      (some ⟨name, type, kind, UInt16.ofNat (s.count kind)⟩,
        ⟨s.entries.push ⟨name, type, kind, UInt16.ofNat (s.count kind)⟩,
          s.counts.increment kind⟩) := by
  obtain ⟨entries, counts⟩ := s
  exact if_pos h

theorem define_of_not_lt {s : Scope} {name : String} {type : VarType} {kind : VariableKind}
    (h : ¬s.count kind < maxVariables) : s.define name type kind = (none, s) := by
  obtain ⟨entries, counts⟩ := s
  exact if_neg h

theorem count_increment (entries : Array Variable) (counts : VariableCounts) (kind : VariableKind) :
    (Scope.mk entries (counts.increment kind)).count =
      Function.update counts.get kind (counts.get kind + 1) := by
  funext l
  rw [count, counts.get_increment, Function.update_apply]
  by_cases h : l = kind
  · simp [h]
  · simp [h, Ne.symm h]

/-- Declaring leaves the variables before the first overflow in the scope, and complains about that
one. -/
theorem declareOnto_eq (ds : List Declaration) (s : Scope) (records : List Record) :
    (s.declareOnto ds records).1.fault =
        ((numbered s.count ds).find? fun p => !fits p).map (·.1.overflow) ∧
      (s.declareOnto ds records).2.entries.toList =
        s.entries.toList ++
          ((numbered s.count ds).takeWhile fits).map (fun p => p.1.variable p.2) ∧
      ∀ k, (s.declareOnto ds records).2.count k =
        s.count k + ((numbered s.count ds).takeWhile fits).countP (·.1.kind == k) := by
  induction ds generalizing s records with
  | nil => simp [declareOnto, numbered_nil, Trail.of]
  | cons d ds ih =>
      rw [declareOnto, numbered_cons]
      by_cases h : s.count d.kind < maxVariables
      · rw [define_of_lt h]
        obtain ⟨hfault, hentries, hcount⟩ := ih
          ⟨s.entries.push ⟨d.name.text, d.type, d.kind, UInt16.ofNat (s.count d.kind)⟩,
            s.counts.increment d.kind⟩
          ((s.redefinition? d.name.text d.kind).toList ++ records)
        rw [count_increment] at hfault hentries hcount
        have hfits : fits (d, s.count d.kind) = true := by simpa [fits] using h
        rw [List.find?_cons_of_neg (by simp [hfits]), List.takeWhile_cons_of_pos hfits]
        refine ⟨hfault, ?_, fun k => ?_⟩
        · dsimp only
          rw [hentries, Array.toList_push, List.map_cons, List.append_assoc]
          rfl
        · dsimp only
          rw [hcount, List.countP_cons, Function.update_apply]
          by_cases hk : k = d.kind
          · subst hk
            rw [if_pos rfl, if_pos (beq_self_eq_true _), Nat.add_right_comm, Nat.add_assoc]
            rfl
          · rw [if_neg hk, if_neg (by simpa using Ne.symm hk)]
            rfl
      · rw [define_of_not_lt h]
        simp [fits, h, Declaration.overflow]

theorem declareOnto_count_le (ds : List Declaration) (s : Scope) (records : List Record)
    (h : ∀ k, s.count k ≤ maxVariables) (k : VariableKind) :
    (s.declareOnto ds records).2.count k ≤ maxVariables := by
  induction ds generalizing s records with
  | nil => exact h k
  | cons d ds ih =>
      rw [declareOnto]
      by_cases hlt : s.count d.kind < maxVariables
      · rw [define_of_lt hlt]
        apply ih
        intro l
        rw [count_increment, Function.update_apply]
        split
        · exact hlt
        · exact h l
      · rw [define_of_not_lt hlt]
        exact h k

variable {s : Scope} {ds : List Declaration}

/-- Declaring complains about the first declaration that finds no number left, if there is one. -/
theorem declare_fault (s : Scope) (ds : List Declaration) :
    (s.declare ds).1.fault = ((numbered s.count ds).find? fun p => !fits p).map (·.1.overflow) :=
  (declareOnto_eq ds s []).1

theorem fits_of_declare (h : (s.declare ds).1.fault = none) :
    ∀ p ∈ numbered s.count ds, fits p = true := by
  rw [declare_fault, Option.map_eq_none_iff] at h
  intro p hp
  simpa using List.find?_eq_none.mp h p hp

/-- A scope whose variables could all be declared has them behind the ones it had. -/
theorem declare_entries (h : (s.declare ds).1.fault = none) :
    (s.declare ds).2.entries.toList =
      s.entries.toList ++ (numbered s.count ds).map fun p => p.1.variable p.2 := by
  have hentries := (declareOnto_eq ds s []).2.1
  rwa [List.takeWhile_eq_self_iff.mpr (fits_of_declare h)] at hentries

theorem declare_count (h : (s.declare ds).1.fault = none) (k : VariableKind) :
    (s.declare ds).2.count k = s.count k + ds.countP (·.kind == k) := by
  have hcount := (declareOnto_eq ds s []).2.2 k
  rw [List.takeWhile_eq_self_iff.mpr (fits_of_declare h)] at hcount
  have hmap := congrArg (List.countP (·.kind == k)) (map_fst_numbered s.count ds)
  rw [List.countP_map] at hmap
  rw [declare, hcount, ← hmap]
  rfl

/-- All variables can be declared exactly if there are numbers enough for each kind. -/
theorem declare_fault_eq_none_iff (hs : ∀ k, s.count k ≤ maxVariables) :
    (s.declare ds).1.fault = none ↔
      ∀ k, s.count k + ds.countP (·.kind == k) ≤ maxVariables := by
  constructor
  · intro h k
    rw [← declare_count h]
    exact declareOnto_count_le ds s [] hs k
  · intro h
    rw [declare_fault, Option.map_eq_none_iff, List.find?_eq_none]
    intro p hp
    have hlt := Nat.lt_of_lt_of_le (lt_of_mem_numbered hp) (h p.1.kind)
    simpa [fits] using hlt

/-- Whether or not all variables could be declared, a scope has no others. -/
theorem mem_declare_entries {v : Variable} (hv : v ∈ (s.declare ds).2.entries.toList) :
    v ∈ s.entries.toList ∨
      ∃ p ∈ numbered s.count ds, fits p = true ∧ v = p.1.variable p.2 := by
  rw [declare, (declareOnto_eq ds s []).2.1] at hv
  rcases List.mem_append.mp hv with hv | hv
  · exact .inl hv
  · obtain ⟨p, hp, rfl⟩ := List.mem_map.mp hv
    exact .inr ⟨p, (List.takeWhile_sublist _).subset hp, List.mem_takeWhile_imp hp, rfl⟩

end Scope

/-! ## Scopes of subroutines -/

namespace SubroutineKind

/-- The variables of each kind that a subroutine has before its declarations. -/
def hidden : SubroutineKind → VariableKind → Nat
  | method, .argument => 1
  | _, _ => 0

/-- The hidden first argument of a method. -/
def receivers (className : String) : SubroutineKind → List Variable
  | method => [⟨"this", .object className, .argument, 0⟩]
  | _ => []

theorem hidden_localVar (k : SubroutineKind) : k.hidden .localVar = 0 := by
  cases k <;> rfl

theorem count_scope (k : SubroutineKind) (className : String) :
    (k.scope className).count = k.hidden := by
  funext l
  cases k <;> cases l <;> rfl

theorem entries_scope (k : SubroutineKind) (className : String) :
    (k.scope className).entries.toList = k.receivers className := by
  cases k <;> rfl

end SubroutineKind

end JackCompiler
