import JackCompiler.Emit.Statement
import JackCompiler.Journal

/-!
# Code of a class

The variables of a class are declared first, wherever they stand in it, and then its subroutines are
compiled one by one. The scope of a subroutine holds its parameters and its local variables, and in a
method the current object as a hidden first argument.

## Implementation notes

A generator keeps its class, its scopes and its counters from one class to the next, as they were
when it last stopped, and starts each of them anew before it is used.
-/

namespace JackCompiler

/-- A variable to be declared. -/
structure Declaration where
  name : Name
  type : VarType
  kind : VariableKind
deriving DecidableEq, Repr

/-- The kind of the variables on a line of class variables. -/
def ClassVariableKind.variableKind : ClassVariableKind → VariableKind
  | static => .static
  | field => .field

/-- The variables that a class declares, in source order. -/
def ClassTree.declarations (c : ClassTree) : List Declaration :=
  c.vars.flatMap fun line =>
    line.names.map fun n => ⟨n, line.type, line.kind.variableKind⟩

/-- The variables that a subroutine declares: its parameters, then its local variables. -/
def Subroutine.declarations (s : Subroutine) : List Declaration :=
  s.parameters.map (fun p => ⟨p.name, p.type, .argument⟩) ++
    s.body.locals.flatMap fun line => line.names.map fun n => ⟨n, line.type, .localVar⟩

/-- The record of a definition whose name a scope holds already. -/
def Scope.redefinition? (s : Scope) (name : String) (kind : VariableKind) : Option Record :=
  (s.find? name).map fun v => .redefined v.kind name kind

/-- Declare variables in a scope up to the first that finds no number left, given the records so far
in reverse order. -/
def Scope.declareOnto : Scope → List Declaration → List Record → Trail Record × Scope
  | s, [], records => (.of records.reverse, s)
  | s, d :: ds, records =>
      let redefinition := s.redefinition? d.name.text d.kind
      match s.define d.name.text d.type d.kind with
      | (some _, s) => s.declareOnto ds (redefinition.toList ++ records)
      | (none, s) =>
          (⟨records.reverse, some ⟨.meaning (.tooManyVariables d.kind), d.name.span.start⟩⟩, s)

/-- Declare variables in a scope, with a record for each name that it held already. -/
def Scope.declare (s : Scope) (ds : List Declaration) : Trail Record × Scope :=
  s.declareOnto ds []

/-- The scope of a subroutine before its declarations. -/
def SubroutineKind.scope (className : String) : SubroutineKind → Scope
  | method => (Scope.empty.define "this" (.object className) .argument).2
  | _ => Scope.empty

/-- The code before the statements of a subroutine: a constructor makes an object that has room for
the fields of its class, and a method takes its object from its first argument. -/
def SubroutineKind.prologue (fields : Nat) : SubroutineKind → List Instruction
  | constructor => [pushConstant fields, .call "Memory.alloc" 1, .pop .pointer 0]
  | method => [.push .argument 0, .pop .pointer 0]
  | function => []

/-- A generator of code: the class that it is in, the scopes of the class and of the subroutine, and
the counters for labels. -/
structure Generator where
  className : String
  classScope : Scope
  scope : Scope
  counters : Counters
deriving DecidableEq, Repr

namespace Generator

/-- A generator that has not seen a class yet. -/
def new : Generator :=
  ⟨"", .empty, .empty, .zero⟩

/-- The variables in sight of a generator. -/
def frame (g : Generator) : Frame :=
  ⟨g.className, g.classScope, g.scope⟩

/-- Compile a subroutine whose variables have been declared. -/
def emitSubroutine (o : Options) (s : Subroutine) (g : Generator) : Trail Record × Generator :=
  let header := .function (g.className ++ "." ++ s.name.text) (g.scope.count .localVar) ::
    s.kind.prologue (g.classScope.count .field)
  let (code, counters) := (Emitter.emit header ++ emitBlock o g.frame s.body.block) .zero
  (code.map .instruction, { g with counters := counters })

/-- Compile a subroutine. -/
def subroutine (o : Options) (s : Subroutine) (g : Generator) : Trail Record × Generator :=
  let (declared, scope) := (s.kind.scope g.className).declare s.declarations
  let g := { g with scope := scope }
  let records :=
    Trail.of [.compilingSubroutine s.kind (g.className ++ "." ++ s.name.text)] ++ declared
  match records.fault with
  | some _ => (records, g)
  | none =>
      let (code, g) := g.emitSubroutine o s
      (records ++ code, g)

/-- Compile subroutines in order, up to the first that is stopped. -/
def subroutines (o : Options) : List Subroutine → Generator → Trail Record × Generator
  | [], g => (.of [], g)
  | s :: ss, g =>
      match g.subroutine o s with
      | (⟨records, some e⟩, g) => (⟨records, some e⟩, g)
      | (⟨records, none⟩, g) =>
          let (rest, g) := subroutines o ss g
          (⟨records ++ rest.items, rest.fault⟩, g)

/-- Compile a class. -/
def compile (o : Options) (c : ClassTree) (g : Generator) : Trail Record × Generator :=
  let (declared, classScope) := Scope.empty.declare c.declarations
  let g := { g with className := c.name.text, classScope := classScope }
  let records := Trail.of [.compilingClass c.name.text] ++ declared
  match records.fault with
  | some _ => (records, g)
  | none =>
      let (rest, g) := g.subroutines o c.subroutines
      (records ++ rest, g)

end Generator

end JackCompiler
