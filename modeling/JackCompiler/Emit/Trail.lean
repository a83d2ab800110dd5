import JackCompiler.Complaint

/-!
# Trails

A trail is what a step of code generation leaves behind: a list of items and, if the step had to
stop, the complaint that stopped it. Trails are joined so that nothing comes after a complaint.
-/

namespace JackCompiler

/-- Items in order, and the complaint that stopped them if there is one. -/
structure Trail (α : Type) where
  items : List α
  fault : Option Complaint
deriving DecidableEq, Repr

namespace Trail

variable {α β : Type}

/-- A trail of items that was not stopped. -/
def of (items : List α) : Trail α :=
  ⟨items, none⟩

/-- A trail that was stopped before its first item. -/
def stopped (c : Complaint) : Trail α :=
  ⟨[], some c⟩

/-- Join two trails: the second one counts only if the first was not stopped. -/
def append (a b : Trail α) : Trail α :=
  match a.fault with
  | some _ => a
  | none => ⟨a.items ++ b.items, b.fault⟩

instance : Append (Trail α) :=
  ⟨append⟩

/-- Change the items of a trail. -/
def map (f : α → β) (t : Trail α) : Trail β :=
  ⟨t.items.map f, t.fault⟩

@[simp] theorem of_append (xs : List α) (t : Trail α) :
    of xs ++ t = ⟨xs ++ t.items, t.fault⟩ := rfl

theorem of_append_of (xs ys : List α) : of xs ++ of ys = of (xs ++ ys) := rfl

@[simp] theorem stopped_append (c : Complaint) (t : Trail α) : stopped c ++ t = stopped c := rfl

@[simp] theorem append_of_nil (t : Trail α) : t ++ of [] = t := by
  cases t with
  | mk items fault =>
      cases fault with
      | none => exact congrArg (Trail.mk · none) (List.append_nil items)
      | some c => rfl

theorem append_assoc (a b c : Trail α) : a ++ b ++ c = a ++ (b ++ c) := by
  rcases a with ⟨xs, _ | e⟩
  · rcases b with ⟨ys, _ | e⟩
    · exact congrArg (Trail.mk · c.fault) (List.append_assoc xs ys c.items)
    · rfl
  · rfl

theorem map_append (f : α → β) (a b : Trail α) : (a ++ b).map f = a.map f ++ b.map f := by
  rcases a with ⟨xs, _ | e⟩
  · exact congrArg (Trail.mk · b.fault) List.map_append
  · rfl

end Trail

end JackCompiler
