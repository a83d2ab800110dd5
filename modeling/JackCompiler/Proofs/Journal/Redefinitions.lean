import JackCompiler.Proofs.Declarations.Histories
import Mathlib.Data.List.ReduceOption

/-!
# Redefinitions

Declaring variables in a scope leaves a record for each of them whose name was declared before it
there. The record names the kind of the first declaration of the name, whatever other declarations
of it stand between, and no other scope matters. So there is no record exactly if all names of the
scope are different.

## Implementation notes

The scope of a method begins with the hidden argument. Its name is a reserved word, so what a scope
knows is compared with declarations under all names but that one.
-/

namespace JackCompiler

/-- The record of a declaration that comes after others of its scope, if one of these has its name.
-/
def Declaration.redefinition? (earlier : List Declaration) (d : Declaration) : Option Record :=
  (earlier.find? fun e => e.name.text == d.name.text).map fun e =>
    .redefined e.kind d.name.text d.kind

/-- The records of declarations that come after others of their scope. -/
def redefinitionsAfter (earlier ds : List Declaration) : List Record :=
  (ds.mapIdx fun i d => d.redefinition? (earlier ++ ds.take i)).reduceOption

/-- The records of the declarations of a scope. -/
def redefinitions (ds : List Declaration) : List Record :=
  redefinitionsAfter [] ds

variable {earlier ds : List Declaration} {d : Declaration}

theorem redefinitionsAfter_cons (earlier : List Declaration) (d : Declaration)
    (ds : List Declaration) : redefinitionsAfter earlier (d :: ds) =
      (d.redefinition? earlier).toList ++ redefinitionsAfter (earlier ++ [d]) ds := by
  have hrest : (ds.mapIdx fun i e => e.redefinition? (earlier ++ (d :: ds).take (i + 1))) =
      ds.mapIdx fun i e => e.redefinition? (earlier ++ [d] ++ ds.take i) := by
    simp only [List.take_succ_cons, List.append_assoc, List.singleton_append]
  rw [redefinitionsAfter, List.mapIdx_cons, hrest, List.take_zero, List.append_nil]
  cases d.redefinition? earlier <;> rfl

theorem Declaration.redefinition?_eq_none_iff :
    d.redefinition? earlier = none ↔ ∀ e ∈ earlier, e.name.text ≠ d.name.text := by
  simp [redefinition?, List.find?_eq_none]

theorem redefinitionsAfter_eq_nil_iff : redefinitionsAfter earlier ds = [] ↔
    (∀ d ∈ ds, ∀ e ∈ earlier, e.name.text ≠ d.name.text) ∧ (ds.map (·.name.text)).Nodup := by
  induction ds generalizing earlier with
  | nil => simp [redefinitionsAfter, List.reduceOption_nil]
  | cons d ds ih =>
      rw [redefinitionsAfter_cons, List.append_eq_nil_iff, ih, Option.toList_eq_nil_iff,
        Declaration.redefinition?_eq_none_iff, List.map_cons, List.nodup_cons]
      simp only [List.forall_mem_cons, List.mem_append, List.mem_singleton, List.mem_map]
      grind

/-- There are no redefinitions exactly if all names are different. -/
theorem redefinitions_eq_nil_iff :
    redefinitions ds = [] ↔ (ds.map (·.name.text)).Nodup := by
  rw [redefinitions, redefinitionsAfter_eq_nil_iff]
  simp

/-- Redefinitions are warnings. -/
theorem level_of_mem_redefinitions {r : Record} (h : r ∈ redefinitions ds) : r.level = .warn := by
  rw [redefinitions, redefinitionsAfter, List.reduceOption_mem_iff, List.mem_mapIdx] at h
  obtain ⟨_, _, hr⟩ := h
  obtain ⟨e, -, rfl⟩ := Option.map_eq_some_iff.mp hr
  rfl

namespace Scope

/-- But for the name of the hidden argument, a scope knows declarations: the kind that it has for a
name is that of the first of them with this name. -/
def Knows (s : Scope) (ds : List Declaration) : Prop :=
  ∀ x ≠ "this", s.kindOf? x = (ds.find? fun d => d.name.text == x).map Declaration.kind

variable {s : Scope}

theorem Knows.redefinition? (h : s.Knows earlier) (hd : d.name.text ≠ "this") :
    s.redefinition? d.name.text d.kind = d.redefinition? earlier := by
  have hkind := congrArg (Option.map fun k => Record.redefined k d.name.text d.kind) (h _ hd)
  rw [kindOf?, Option.map_map, Option.map_map] at hkind
  exact hkind

theorem Knows.define (h : s.Knows earlier) (hlt : s.count d.kind < maxVariables) :
    (s.define d.name.text d.type d.kind).2.Knows (earlier ++ [d]) := by
  intro x hx
  have hknown := h x hx
  rw [kindOf?, find?, ← Array.find?_toList] at hknown ⊢
  rw [entries_define hlt, List.find?_append, List.find?_append, Option.map_or, Option.map_or,
    hknown]
  by_cases hname : d.name.text = x <;> simp [hname]

/-- A scope that takes all of some declarations records their redefinitions. -/
theorem declareOnto_items (h : s.Knows earlier) (hds : ∀ d ∈ ds, d.name.text ≠ "this")
    (records : List Record) (hfault : (s.declareOnto ds records).1.fault = none) :
    (s.declareOnto ds records).1.items = records.reverse ++ redefinitionsAfter earlier ds := by
  -- What the scope knows grows with the declarations that lie behind.
  induction ds generalizing s earlier records with
  | nil => exact (List.append_nil _).symm
  | cons d ds ih =>
      obtain ⟨hd, hds⟩ := List.forall_mem_cons.mp hds
      by_cases hlt : s.count d.kind < maxVariables
      · have hdefined := h.define hlt
        rw [declareOnto] at hfault ⊢
        rw [define_of_lt hlt] at hfault hdefined ⊢
        rw [ih hdefined hds _ hfault, h.redefinition? hd, redefinitionsAfter_cons,
          List.reverse_append, List.append_assoc]
        cases d.redefinition? earlier <;> rfl
      · rw [declareOnto, define_of_not_lt hlt] at hfault
        cases hfault

theorem knows_empty : empty.Knows [] := fun _ _ => rfl

end Scope

/-- Before its declarations the scope of a subroutine knows none. -/
theorem SubroutineKind.scope_knows (k : SubroutineKind) (className : String) :
    (k.scope className).Knows [] := by
  intro x hx
  rw [Scope.kindOf?, Scope.find?, ← Array.find?_toList, k.entries_scope]
  cases k with
  | method => simp [receivers, hx.symm]
  | constructor | function => rfl

namespace ClassTree

variable {c : ClassTree} {s : Subroutine}

/-- The declarations of a class that all find a number leave its redefinitions. -/
theorem declare_items (hnames : ∀ d ∈ c.declarations, d.name.text ≠ "this")
    (h : (Scope.empty.declare c.declarations).1.fault = none) :
    (Scope.empty.declare c.declarations).1.items = redefinitions c.declarations :=
  Scope.declareOnto_items Scope.knows_empty hnames [] h

/-- So do those of a subroutine. -/
theorem declared_items (hnames : ∀ d ∈ s.declarations, d.name.text ≠ "this")
    (h : (c.declared s).1.fault = none) : (c.declared s).1.items = redefinitions s.declarations :=
  Scope.declareOnto_items (s.kind.scope_knows c.name.text) hnames [] h

end ClassTree

end JackCompiler
