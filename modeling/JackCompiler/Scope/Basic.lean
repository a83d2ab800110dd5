import JackCompiler.Machine.Limits
import JackCompiler.Scope.Kind
import JackCompiler.Tree.Declaration

/-!
# Scopes

A scope holds the variables of a class or of a subroutine in the order of their definition. The
variables of each kind are numbered from zero. A name may be defined again: the new variable takes a
number of its own, and look-ups go on finding the first one.

## Implementation notes

The number of variables of each kind is kept beside the variables, so that defining one does not
count them.
-/

namespace JackCompiler

/-- A variable: its name and type, its kind and its number among the variables of that kind. -/
structure Variable where
  name : String
  type : VarType
  kind : VariableKind
  index : UInt16
deriving DecidableEq, Repr

/-- The number of variables of each kind. -/
structure VariableCounts where
  statics : Nat
  fields : Nat
  arguments : Nat
  locals : Nat
deriving DecidableEq, Repr

namespace VariableCounts

/-- No variables of any kind. -/
def zero : VariableCounts :=
  ⟨0, 0, 0, 0⟩

/-- The number of variables of a kind. -/
def get (c : VariableCounts) : VariableKind → Nat
  | .static => c.statics
  | .field => c.fields
  | .argument => c.arguments
  | .localVar => c.locals

/-- One more variable of a kind. -/
def increment (c : VariableCounts) : VariableKind → VariableCounts
  | .static => { c with statics := c.statics + 1 }
  | .field => { c with fields := c.fields + 1 }
  | .argument => { c with arguments := c.arguments + 1 }
  | .localVar => { c with locals := c.locals + 1 }

@[simp] theorem get_zero (k : VariableKind) : zero.get k = 0 := by
  cases k <;> rfl

theorem get_increment (c : VariableCounts) (k l : VariableKind) :
    (c.increment k).get l = if k = l then c.get l + 1 else c.get l := by
  cases k <;> cases l <;> rfl

end VariableCounts

/-- The variables of a class or of a subroutine, first definition first, and their numbers. -/
structure Scope where
  entries : Array Variable
  counts : VariableCounts
deriving DecidableEq, Repr

namespace Scope

/-- A scope without variables. -/
def empty : Scope :=
  ⟨#[], .zero⟩

/-- The number of variables of a kind. -/
def count (s : Scope) (kind : VariableKind) : Nat :=
  s.counts.get kind

/-- The first variable of a name. -/
def find? (s : Scope) (name : String) : Option Variable :=
  s.entries.find? fun v => v.name == name

/-- The kind of the first variable of a name. -/
def kindOf? (s : Scope) (name : String) : Option VariableKind :=
  (s.find? name).map Variable.kind

/-- The type of the first variable of a name. -/
def typeOf? (s : Scope) (name : String) : Option VarType :=
  (s.find? name).map Variable.type

/-- The number of the first variable of a name among those of its kind. -/
def indexOf? (s : Scope) (name : String) : Option UInt16 :=
  (s.find? name).map Variable.index

/-- Define a variable with the next number of its kind. There is none when all numbers of the kind
are taken, and the scope stays as it is. -/
def define (s : Scope) (name : String) (type : VarType) (kind : VariableKind) :
    Option Variable × Scope :=
  match s with
  | ⟨entries, counts⟩ =>
      let n := counts.get kind
      if n < maxVariables then
        let v : Variable := ⟨name, type, kind, UInt16.ofNat n⟩
        (some v, ⟨entries.push v, counts.increment kind⟩)
      else (none, ⟨entries, counts⟩)

end Scope

end JackCompiler
