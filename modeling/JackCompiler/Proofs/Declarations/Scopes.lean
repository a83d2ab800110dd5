import JackCompiler.Proofs.Declarations.Numbering
import JackCompiler.Proofs.Output.Functions

/-!
# Variables in sight of a subroutine

A subroutine sees its own variables and those of its class, and a name means the first declaration
of it among them. A class whose variables are too many has fewer of them in sight, so what is said
about such a class bounds what a name can mean.
-/

namespace JackCompiler

/-- A variable that is found has the name and is in the scope. -/
theorem Scope.find?_eq_some {s : Scope} {x : String} {v : Variable} (h : s.find? x = some v) :
    v ∈ s.entries.toList ∧ v.name = x := by
  rw [find?, ← Array.find?_toList] at h
  exact ⟨List.mem_of_find?_eq_some h, by simpa using List.find?_some h⟩

/-- A scope finds what it had before what was declared in it. -/
theorem Scope.find?_declare {s : Scope} {ds : List Declaration}
    (h : (s.declare ds).1.fault = none) (x : String) :
    (s.declare ds).2.find? x = (s.entries.toList.find? (·.name == x)).or
      (((numbered s.count ds).find? (·.1.name.text == x)).map fun p => p.1.variable p.2) := by
  rw [find?, ← Array.find?_toList, declare_entries h, List.find?_append, List.find?_map]
  rfl

theorem Scope.count_empty : Scope.empty.count = fun _ => 0 :=
  funext VariableCounts.get_zero

namespace ClassTree

/-- The declarations in sight of a subroutine with their numbers: its own, and then those of its
class, wherever they stand in it. -/
def visible (c : ClassTree) (s : Subroutine) : List (Declaration × Nat) :=
  numbered s.kind.hidden s.declarations ++ numbered (fun _ => 0) c.declarations

/-- The declaration that a name means in a subroutine, with its number. -/
def meaning? (c : ClassTree) (s : Subroutine) (x : String) : Option (Declaration × Nat) :=
  (c.visible s).find? (·.1.name.text == x)

/-- A name is declared in a subroutine or anywhere in its class. -/
def declares (c : ClassTree) (s : Subroutine) (x : String) : Bool :=
  (s.declarations ++ c.declarations).any fun d => d.name.text == x

variable {c : ClassTree} {s : Subroutine} {v : Variable}

theorem map_fst_visible (c : ClassTree) (s : Subroutine) :
    (c.visible s).map Prod.fst = s.declarations ++ c.declarations := by
  rw [visible, List.map_append, map_fst_numbered, map_fst_numbered]

/-- A name means something exactly if it is declared. -/
theorem meaning?_isSome (c : ClassTree) (s : Subroutine) (x : String) :
    (c.meaning? s x).isSome = c.declares s x := by
  rw [meaning?, List.isSome_find?, declares, ← map_fst_visible, List.any_map]
  rfl

/-- Where all variables could be declared, a name is looked up as what it means. The hidden argument
of a method has a name that no variable is written with. -/
theorem frame_lookup? (hclass : (Scope.empty.declare c.declarations).1.fault = none)
    (hs : (c.declared s).1.fault = none) {x : String} (hx : x ≠ "this") :
    (c.frame s).lookup? x = (c.meaning? s x).map fun p => p.1.variable p.2 := by
  have hreceivers : (s.kind.receivers c.name.text).find? (·.name == x) = none := by
    cases s.kind with
    | method => simp [SubroutineKind.receivers, hx.symm]
    | constructor | function => rfl
  have hscope := Scope.find?_declare hs x
  rw [s.kind.entries_scope, s.kind.count_scope, hreceivers, Option.none_or] at hscope
  have hclassScope := Scope.find?_declare hclass x
  rw [Scope.count_empty] at hclassScope
  rw [meaning?, visible, List.find?_append, Option.map_or]
  exact congrArg₂ Option.or hscope hclassScope

theorem mem_scope (hv : v ∈ c.scope.entries.toList) :
    ∃ p ∈ numbered (fun _ => 0) c.declarations, fits p = true ∧ v = p.1.variable p.2 := by
  rcases Scope.mem_declare_entries hv with hv | hv
  · cases hv
  · rwa [Scope.count_empty] at hv

theorem mem_frame_scope (hv : v ∈ (c.frame s).scope.entries.toList) :
    v ∈ s.kind.receivers c.name.text ∨
      ∃ p ∈ numbered s.kind.hidden s.declarations, fits p = true ∧ v = p.1.variable p.2 := by
  have hcases := Scope.mem_declare_entries hv
  rwa [s.kind.entries_scope, s.kind.count_scope] at hcases

/-- What a name can mean in a subroutine: the hidden argument of a method, one of the variables of
the subroutine, or one of those of the class. -/
theorem lookup?_cases {x : String} (h : (c.frame s).lookup? x = some v) :
    v.name = x ∧ (v ∈ s.kind.receivers c.name.text ∨
      (∃ p ∈ numbered s.kind.hidden s.declarations, fits p = true ∧ v = p.1.variable p.2) ∨
      ∃ p ∈ numbered (fun _ => 0) c.declarations, fits p = true ∧ v = p.1.variable p.2) := by
  rcases Option.or_eq_some_iff.mp h with h | ⟨-, h⟩
  · obtain ⟨hv, hname⟩ := Scope.find?_eq_some h
    exact ⟨hname, (mem_frame_scope hv).imp_right .inl⟩
  · obtain ⟨hv, hname⟩ := Scope.find?_eq_some h
    exact ⟨hname, .inr (.inr (mem_scope hv))⟩

theorem count_scope_le (c : ClassTree) (k : VariableKind) : c.scope.count k ≤ maxVariables := by
  apply Scope.declareOnto_count_le
  intro l
  rw [Scope.count, Scope.empty, VariableCounts.get_zero]
  exact Nat.zero_le _

end ClassTree

end JackCompiler
