import JackCompiler.Proofs.Mentions.Trees
import Mathlib.Data.List.Perm.Basic

/-!
# Uses of variables

The variables that statements read and set, in the order in which their values are needed: an index
before the array and a value before the variable that it is assigned to. The receiver of a call is
used before the arguments; whether it is a variable depends on what is in sight.

## Implementation notes

The order is that of evaluation and not that of the source, so the uses of a block are only a
permutation of what it mentions.
-/

namespace JackCompiler

/-- How a name is used. -/
inductive Access where
  | read | write | receiver
deriving DecidableEq, Repr

/-- A use of a name. -/
structure Use where
  access : Access
  name : Name
deriving DecidableEq, Repr

mutual

/-- The uses that evaluate an expression. -/
def Expr.uses : Expr → List Use
  | .operand _ t => t.uses
  | .binary _ t _ rest => t.uses ++ rest.uses
termination_by structural e => e

/-- The uses that evaluate a term. -/
def Term.uses : Term → List Use
  | .integer _ | .text _ _ | .word _ => []
  | .variable n => [⟨.read, n⟩]
  | .element array index => index.uses ++ [⟨.read, array⟩]
  | .call c => c.uses
  | .paren inner => inner.uses
termination_by structural t => t

/-- The uses that make a call. -/
def Call.uses : Call → List Use
  | .mk none _ args => argsUses args
  | .mk (some receiver) _ args => ⟨.receiver, receiver⟩ :: argsUses args
termination_by structural c => c

/-- The uses that evaluate arguments. -/
def argsUses : List Expr → List Use
  | [] => []
  | e :: es => e.uses ++ argsUses es
termination_by structural es => es

end

mutual

/-- The uses of a statement. The array of an element that is set is read. -/
def Stmt.uses : Stmt → List Use
  | .assign target none value => value.uses ++ [⟨.write, target⟩]
  | .assign target (some index) value => index.uses ++ (⟨.read, target⟩ :: value.uses)
  | .branch cond yes none => cond.uses ++ blockUses yes
  | .branch cond yes (some no) => cond.uses ++ (blockUses yes ++ blockUses no)
  | .loop cond body => cond.uses ++ blockUses body
  | .call c => c.uses
  | .ret none => []
  | .ret (some value) => value.uses
termination_by structural s => s

/-- The uses of the statements of a block. -/
def blockUses : List Stmt → List Use
  | [] => []
  | s :: ss => s.uses ++ blockUses ss
termination_by structural ss => ss

end

/-- The uses of the statements of a subroutine. -/
def Subroutine.uses (s : Subroutine) : List Use :=
  blockUses s.body.block

/-! ## Uses and mentions -/

/-- What a name is written for where it is used. -/
def Access.role : Access → Role
  | read | write => .variable
  | receiver => .receiver

/-- The mention of a use. -/
def Use.mention (u : Use) : Mention :=
  .name u.access.role u.name

/-- A mention of a variable or a receiver. -/
def Mention.isUse : Mention → Bool
  | name .variable _ | name .receiver _ => true
  | name .declared _ | name .callee _ | number _ | text _ _ => false

/-- Uses are all that mentions ask for. -/
def UsesOf (us : List Use) (ms : List Mention) : Prop :=
  (us.map Use.mention).Perm (ms.filter Mention.isUse)

namespace UsesOf

variable {us vs : List Use} {ms ns : List Mention}

theorem nil : UsesOf [] [] :=
  .refl _

theorem append (h : UsesOf us ms) (k : UsesOf vs ns) : UsesOf (us ++ vs) (ms ++ ns) := by
  rw [UsesOf, List.map_append, List.filter_append]
  exact List.Perm.append h k

/-- A mention that is no use may be left out. -/
theorem skip {m : Mention} (hm : m.isUse = false) (h : UsesOf us ms) : UsesOf us (m :: ms) := by
  rwa [UsesOf, List.filter_cons_of_neg (by simp [hm])]

theorem mention_isUse (u : Use) : u.mention.isUse = true := by
  obtain ⟨_ | _ | _, n⟩ := u <;> rfl

theorem cons (u : Use) (h : UsesOf us ms) : UsesOf (u :: us) (u.mention :: ms) := by
  rw [UsesOf, List.map_cons, List.filter_cons_of_pos (mention_isUse u)]
  exact List.Perm.cons _ h

/-- A use may come later than its mention. -/
theorem insert (u : Use) (h : UsesOf (us ++ vs) ms) : UsesOf (us ++ u :: vs) (u.mention :: ms) :=
  (List.perm_middle.map Use.mention).trans (h.cons u)

theorem concat (u : Use) (h : UsesOf us ms) : UsesOf (us ++ [u]) (u.mention :: ms) :=
  insert u (by rwa [List.append_nil])

end UsesOf

open UsesOf

mutual

/-- An expression uses the variables and receivers that it mentions. -/
theorem Expr.usesOf : (e : Expr) → UsesOf e.uses e.mentions
  | .operand _ t => t.usesOf
  | .binary _ t _ rest => t.usesOf.append rest.usesOf
termination_by structural e => e

theorem Term.usesOf : (t : Term) → UsesOf t.uses t.mentions
  | .integer _ | .text _ _ => nil.skip rfl
  | .word _ => nil
  | .variable n => nil.cons ⟨.read, n⟩
  | .element array index => index.usesOf.concat ⟨.read, array⟩
  | .call c => c.usesOf
  | .paren inner => inner.usesOf
termination_by structural t => t

theorem Call.usesOf : (c : Call) → UsesOf c.uses c.mentions
  | .mk none _ args => (argsUses_usesOf args).skip rfl
  | .mk (some receiver) _ args => ((argsUses_usesOf args).skip rfl).cons ⟨.receiver, receiver⟩
termination_by structural c => c

theorem argsUses_usesOf : (es : List Expr) → UsesOf (argsUses es) (argsMentions es)
  | [] => nil
  | e :: es => e.usesOf.append (argsUses_usesOf es)
termination_by structural es => es

end

mutual

/-- A statement uses the variables and receivers that it mentions. -/
theorem Stmt.usesOf : (s : Stmt) → UsesOf s.uses s.mentions
  | .assign target none value => value.usesOf.concat ⟨.write, target⟩
  | .assign target (some index) value =>
      (index.usesOf.append value.usesOf).insert ⟨.read, target⟩
  | .branch cond yes none => cond.usesOf.append (blockUses_usesOf yes)
  | .branch cond yes (some no) =>
      cond.usesOf.append ((blockUses_usesOf yes).append (blockUses_usesOf no))
  | .loop cond body => cond.usesOf.append (blockUses_usesOf body)
  | .call c => c.usesOf
  | .ret none => nil
  | .ret (some value) => value.usesOf
termination_by structural s => s

theorem blockUses_usesOf : (ss : List Stmt) → UsesOf (blockUses ss) (blockMentions ss)
  | [] => nil
  | s :: ss => s.usesOf.append (blockUses_usesOf ss)
termination_by structural ss => ss

end

/-- A subroutine uses the variables and receivers that it mentions. -/
theorem Subroutine.usesOf (s : Subroutine) : UsesOf s.uses s.mentions := by
  have hdeclared : ∀ ns : List Name, UsesOf [] (declaredMentions ns) := by
    intro ns
    induction ns with
    | nil => exact .nil
    | cons n ns ih => exact ih.skip rfl
  exact ((hdeclared _).append (blockUses_usesOf s.body.block)).skip rfl

theorem Subroutine.mention_mem {s : Subroutine} {u : Use} (hu : u ∈ s.uses) :
    u.mention ∈ s.mentions :=
  List.mem_of_mem_filter (s.usesOf.subset (List.mem_map_of_mem hu))

end JackCompiler
