/-!
# Numbering of labels

Conditionals and loops take the numbers of their labels from two counters, which start anew in each
subroutine.
-/

namespace JackCompiler

/-- A statement whose labels are numbered. -/
inductive Numbered where
  | conditional | loop
deriving DecidableEq, Repr

/-- The next number of each numbered statement. -/
structure Counters where
  conditionals : Nat
  loops : Nat
deriving DecidableEq, Repr

namespace Counters

/-- The counters at the start of a subroutine. -/
def zero : Counters :=
  ⟨0, 0⟩

/-- The value of a counter. -/
def get (c : Counters) : Numbered → Nat
  | .conditional => c.conditionals
  | .loop => c.loops

/-- Change a counter. -/
def update (c : Counters) (k : Numbered) (f : Nat → Nat) : Counters :=
  match k with
  | .conditional => { c with conditionals := f c.conditionals }
  | .loop => { c with loops := f c.loops }

/-- Step a counter up. -/
def increment (c : Counters) (k : Numbered) : Counters :=
  c.update k (· + 1)

/-- Step a counter down; it stays at zero. -/
def decrement (c : Counters) (k : Numbered) : Counters :=
  c.update k (· - 1)

/-- Take the value of a counter and step it up. -/
def next (c : Counters) (k : Numbered) : Nat × Counters :=
  (c.get k, c.increment k)

@[simp] theorem decrement_increment (c : Counters) (k : Numbered) :
    (c.increment k).decrement k = c := by
  cases k <;> rfl

theorem get_update (c : Counters) (k l : Numbered) (f : Nat → Nat) :
    (c.update k f).get l = if k = l then f (c.get l) else c.get l := by
  cases k <;> cases l <;> rfl

end Counters

end JackCompiler
