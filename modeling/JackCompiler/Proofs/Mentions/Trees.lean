import JackCompiler.Emit.Declaration
import JackCompiler.Grammar.Declaration

/-!
# What a tree mentions

The names, the integer constants and the string constants of a tree, in the order in which a source
writes them: receivers before the names of subroutines, arrays before indices, targets before
values.

## Implementation notes

Types are not listed, and integer constants have no place: a tree keeps neither the place of the
name of a type nor that of an integer.
-/

namespace JackCompiler

/-- What a name is written for. -/
inductive Role where
  | declared | variable | receiver | callee
deriving DecidableEq, Repr

/-- A name with its role, an integer constant or a string constant. -/
inductive Mention where
  | name (role : Role) (n : Name)
  | number (value : UInt16)
  | text (contents : String) (span : Span)
deriving DecidableEq, Repr

/-- The place of a mention, where a tree keeps it. -/
def Mention.span? : Mention → Option Span
  | name _ n => some n.span
  | number _ => none
  | text _ span => some span

mutual

/-- The mentions of an expression. -/
def Expr.mentions : Expr → List Mention
  | .operand _ t => t.mentions
  | .binary _ t _ rest => t.mentions ++ rest.mentions
termination_by structural e => e

/-- The mentions of a term. -/
def Term.mentions : Term → List Mention
  | .integer value => [.number value]
  | .text contents span => [.text contents span]
  | .word _ => []
  | .variable n => [.name .variable n]
  | .element array index => .name .variable array :: index.mentions
  | .call c => c.mentions
  | .paren inner => inner.mentions
termination_by structural t => t

/-- The mentions of a call. -/
def Call.mentions : Call → List Mention
  | .mk none n args => .name .callee n :: argsMentions args
  | .mk (some receiver) n args =>
      .name .receiver receiver :: .name .callee n :: argsMentions args
termination_by structural c => c

/-- The mentions of arguments. -/
def argsMentions : List Expr → List Mention
  | [] => []
  | e :: es => e.mentions ++ argsMentions es
termination_by structural es => es

end

mutual

/-- The mentions of a statement. -/
def Stmt.mentions : Stmt → List Mention
  | .assign target none value => .name .variable target :: value.mentions
  | .assign target (some index) value =>
      .name .variable target :: (index.mentions ++ value.mentions)
  | .branch cond yes none => cond.mentions ++ blockMentions yes
  | .branch cond yes (some no) => cond.mentions ++ (blockMentions yes ++ blockMentions no)
  | .loop cond body => cond.mentions ++ blockMentions body
  | .call c => c.mentions
  | .ret none => []
  | .ret (some value) => value.mentions
termination_by structural s => s

/-- The mentions of the statements of a block. -/
def blockMentions : List Stmt → List Mention
  | [] => []
  | s :: ss => s.mentions ++ blockMentions ss
termination_by structural ss => ss

end

/-- Names as they are declared. -/
def declaredMentions (names : List Name) : List Mention :=
  names.map (.name .declared)

/-- The mentions of a subroutine: its name, its parameters, its local variables and its
statements. -/
def Subroutine.mentions (s : Subroutine) : List Mention :=
  .name .declared s.name :: (declaredMentions (s.declarations.map Declaration.name) ++
    blockMentions s.body.block)

/-- The mentions of a member of a class. -/
def Member.mentions : Member → List Mention
  | vars v => declaredMentions v.names
  | subroutine s => s.mentions

/-- The names of the variables of a subroutine are those of its parameters and then those on its
lines of local variables. -/
theorem Subroutine.declarations_map_name (s : Subroutine) :
    s.declarations.map Declaration.name =
      s.parameters.map Parameter.name ++ s.body.locals.flatMap LocalVariables.names := by
  simp [declarations, List.map_flatMap, Function.comp_def]

/-- The name of each variable that a subroutine declares is mentioned there. -/
theorem Subroutine.declared_mem_mentions {s : Subroutine} {d : Declaration}
    (hd : d ∈ s.declarations) : .name .declared d.name ∈ s.mentions := by
  apply List.mem_cons_of_mem
  apply List.mem_append_left
  exact List.mem_map_of_mem (List.mem_map_of_mem hd)

end JackCompiler
