import JackCompiler.Proofs.Declarations.Outcomes
import JackCompiler.Proofs.Output.Cells
import Mathlib.Data.List.Nodup

/-!
# Slots of variables

A class that compiles reads and sets each variable in the slot of the declaration that the name
means: the segment of its kind and its number. All declarations in sight of a subroutine have slots
of their own, those that are never found included, and no function goes beyond the slots that there
are.

## Implementation notes

The hidden argument of a method is no declaration, so it is listed beside them.
-/

namespace JackCompiler

/-- The slot of a declaration with its number: every kind of variable has a segment of its own. -/
def slotOf (p : Declaration × Nat) : Segment × Nat :=
  match p.1.kind with
  | .static => (.static, p.2)
  | .field => (.this, p.2)
  | .argument => (.argument, p.2)
  | .localVar => (.locals, p.2)

theorem slotOf_eq (p : Declaration × Nat) : slotOf p = (p.1.kind.segment, p.2) := by
  rw [slotOf]
  cases p.1.kind <;> rfl

/-- The slot of the hidden argument of a method. -/
def SubroutineKind.hiddenSlots : SubroutineKind → List (Segment × Nat)
  | method => [(.argument, 0)]
  | constructor | function => []

theorem SubroutineKind.hiddenSlots_length (k : SubroutineKind) :
    k.hiddenSlots.length = k.hidden .argument := by
  cases k <;> rfl

/-- An instruction reads or sets a cell. -/
def Instruction.Touches (i : Instruction) (segment : Segment) (index : UInt16) : Prop :=
  i = .push segment index ∨ i = .pop segment index

namespace ClassTree

/-- The slots of all variables in sight of a subroutine. -/
def slots (c : ClassTree) (s : Subroutine) : List (Segment × Nat) :=
  s.kind.hiddenSlots ++ (c.visible s).map slotOf

/-- How many slots a subroutine has in each segment of variables. -/
def extent (c : ClassTree) (s : Subroutine) : Segment → Nat
  | .static => c.declarations.countP (·.kind == .static)
  | .this => c.declarations.countP (·.kind == .field)
  | .argument => s.kind.hiddenSlots.length + s.parameters.length
  | .locals => s.body.localCount
  | .constant | .that | .pointer | .temp => 0

/-- A use is a use of a variable, unless it is the receiver of a call and nothing of its name is
declared. -/
def usesVariable (c : ClassTree) (s : Subroutine) (u : Use) : Bool :=
  u.access != .receiver || c.declares s u.name.text

/-- An instruction reads or sets what the name of a use means, in the slot of that declaration. -/
def Resolves (c : ClassTree) (s : Subroutine) (u : Use) (i : Instruction) : Prop :=
  ∃ p segment index, c.meaning? s u.name.text = some p ∧ slotOf p = (segment, index.toNat) ∧
    i = u.access.instruction segment index

/-- The code of a subroutine keeps to the slots of its variables. -/
structure Allocates (c : ClassTree) (s : Subroutine) (code : List Instruction) : Prop where
  /-- The uses of the subroutine are its mentions of variables and receivers. -/
  complete : UsesOf s.uses s.mentions
  /-- Behind the opening, the variables that are used are read and set one after the other. -/
  resolves : ∃ body, code = .function (c.name.text ++ "." ++ s.name.text) (c.extent s .locals) ::
      (s.kind.prologue (c.extent s .this) ++ body) ∧
    List.Forall₂ (c.Resolves s) (s.uses.filter (c.usesVariable s))
      (body.filter Instruction.isCell)
  /-- No two variables in sight share a slot. -/
  distinct : (c.slots s).Nodup
  /-- Every slot that the code touches is there. -/
  bounded : ∀ i ∈ code, ∀ (segment : Segment) (index : UInt16),
    segment.holdsVariables = true → i.Touches segment index → index.toNat < c.extent s segment

end ClassTree

namespace Instruction.Touches

theorem isCell {i : Instruction} {segment : Segment} {index : UInt16}
    (h : i.Touches segment index) (hsegment : segment.holdsVariables = true) :
    i.isCell = true := by
  rcases h with rfl | rfl <;> exact hsegment

theorem of_access {a : Access} {segment segment' : Segment} {index index' : UInt16}
    (h : (a.instruction segment index).Touches segment' index') :
    segment = segment' ∧ index = index' := by
  cases a <;> rcases h with h | h <;> cases h <;> exact ⟨rfl, rfl⟩

end Instruction.Touches

/-! ## Kinds of declarations -/

theorem Subroutine.kind_of_mem_declarations {s : Subroutine} {d : Declaration}
    (hd : d ∈ s.declarations) : d.kind = .argument ∨ d.kind = .localVar := by
  rcases List.mem_append.mp hd with hd | hd
  · obtain ⟨p, -, rfl⟩ := List.mem_map.mp hd
    exact .inl rfl
  · obtain ⟨line, -, hd⟩ := List.mem_flatMap.mp hd
    obtain ⟨n, -, rfl⟩ := List.mem_map.mp hd
    exact .inr rfl

theorem ClassTree.kind_of_mem_declarations {c : ClassTree} {d : Declaration}
    (hd : d ∈ c.declarations) : d.kind = .static ∨ d.kind = .field := by
  obtain ⟨line, -, hd⟩ := List.mem_flatMap.mp hd
  obtain ⟨n, -, rfl⟩ := List.mem_map.mp hd
  cases hkind : line.kind with
  | static => exact .inl rfl
  | field => exact .inr rfl

theorem countP_kind {ds : List Declaration} {k : VariableKind} (h : ∀ d ∈ ds, d.kind = k)
    (l : VariableKind) : ds.countP (·.kind == l) = if k = l then ds.length else 0 := by
  split
  · next heq => exact List.countP_eq_length.mpr fun d hd => by simp [h d hd, heq]
  · next hne => exact List.countP_eq_zero.mpr fun d hd => by simp [h d hd, hne]

/-- Of its own variables a subroutine has its parameters and its local variables. -/
theorem Subroutine.countP_declarations (s : Subroutine) :
    s.declarations.countP (·.kind == .argument) = s.parameters.length ∧
      s.declarations.countP (·.kind == .localVar) = s.body.localCount := by
  have hparameters : ∀ d ∈ s.parameters.map
      fun p => (⟨p.name, p.type, .argument⟩ : Declaration), d.kind = .argument := by
    intro d hd
    obtain ⟨p, -, rfl⟩ := List.mem_map.mp hd
    rfl
  have hlocals : ∀ d ∈ s.body.locals.flatMap fun line => line.names.map
      fun n => (⟨n, line.type, .localVar⟩ : Declaration), d.kind = .localVar := by
    intro d hd
    obtain ⟨line, -, hd⟩ := List.mem_flatMap.mp hd
    obtain ⟨n, -, rfl⟩ := List.mem_map.mp hd
    rfl
  have hcount : (s.body.locals.flatMap fun line => line.names.map
      fun n => (⟨n, line.type, .localVar⟩ : Declaration)).length = s.body.localCount := by
    rw [Body.localCount, List.length_flatMap, List.length_flatMap]
    simp only [List.length_map]
  constructor
  · rw [declarations, List.countP_append, countP_kind hparameters, countP_kind hlocals,
      if_pos rfl, if_neg (by decide), List.length_map, Nat.add_zero]
  · rw [declarations, List.countP_append, countP_kind hparameters, countP_kind hlocals,
      if_neg (by decide), if_pos rfl, hcount, Nat.zero_add]

namespace ClassTree

variable {c : ClassTree} {s : Subroutine}

/-! ## Slots do not clash -/

/-- The number of a declaration is below the number of its kind. -/
theorem lt_extent {p : Declaration × Nat} (hp : p ∈ c.visible s) :
    p.2 < c.extent s p.1.kind.segment := by
  rcases List.mem_append.mp hp with hp | hp
  · have hlt := lt_of_mem_numbered hp
    rcases Subroutine.kind_of_mem_declarations (mem_of_mem_numbered hp) with hkind | hkind
    · rw [hkind, s.countP_declarations.1] at hlt
      rwa [hkind, VariableKind.segment, extent, s.kind.hiddenSlots_length]
    · rw [hkind, s.countP_declarations.2, s.kind.hidden_localVar, Nat.zero_add] at hlt
      rwa [hkind]
  · have hlt := lt_of_mem_numbered hp
    rcases c.kind_of_mem_declarations (mem_of_mem_numbered hp) with hkind | hkind
    · rw [hkind, Nat.zero_add] at hlt
      rwa [hkind]
    · rw [hkind, Nat.zero_add] at hlt
      rwa [hkind]

/-- Declarations in sight of a subroutine differ in kind or number. -/
theorem visible_nodup (c : ClassTree) (s : Subroutine) :
    ((c.visible s).map fun p => (p.1.kind, p.2)).Nodup := by
  rw [visible, List.map_append]
  refine (numbered_nodup _ _).append (numbered_nodup _ _) ?_
  intro x hx hx'
  obtain ⟨p, hp, rfl⟩ := List.mem_map.mp hx
  obtain ⟨q, hq, heq⟩ := List.mem_map.mp hx'
  have hkind : q.1.kind = p.1.kind := congrArg Prod.fst heq
  rcases Subroutine.kind_of_mem_declarations (mem_of_mem_numbered hp) with hp' | hp' <;>
    rcases c.kind_of_mem_declarations (mem_of_mem_numbered hq) with hq' | hq' <;>
    rw [hp', hq'] at hkind <;> cases hkind

theorem slots_nodup (c : ClassTree) (s : Subroutine) : (c.slots s).Nodup := by
  have hinjective : Function.Injective (Prod.map VariableKind.segment (id : Nat → Nat)) :=
    Function.Injective.prodMap (fun _ _ => VariableKind.segment_injective) Function.injective_id
  have hvisible : ((c.visible s).map slotOf).Nodup := by
    have hmap := (c.visible_nodup s).map hinjective
    rw [List.map_map] at hmap
    rwa [funext slotOf_eq]
  rw [slots]
  cases hkind : s.kind with
  | constructor | function => exact hvisible
  | method =>
      -- The parameters of a method are numbered from one, so none has the hidden slot.
      refine List.nodup_cons.mpr ⟨fun hmem => ?_, hvisible⟩
      obtain ⟨p, hp, heq⟩ := List.mem_map.mp hmem
      obtain ⟨hsegment, hzero⟩ := Prod.mk.inj ((slotOf_eq p).symm.trans heq)
      have hargument : p.1.kind = .argument :=
        VariableKind.segment_injective (b := .argument) hsegment
      rcases List.mem_append.mp hp with hp | hp
      · have hle := le_of_mem_numbered hp
        rw [hargument, hkind, hzero] at hle
        exact Nat.not_succ_le_zero 0 hle
      · rcases c.kind_of_mem_declarations (mem_of_mem_numbered hp) with h | h <;>
          rw [hargument] at h <;> cases h

/-! ## Code keeps to the slots -/

theorem Resolves.bounded {u : Use} {i : Instruction} (h : c.Resolves s u i) {segment : Segment}
    {index : UInt16} (htouches : i.Touches segment index) :
    index.toNat < c.extent s segment := by
  obtain ⟨p, segment', index', hmeaning, hslot, rfl⟩ := h
  obtain ⟨rfl, rfl⟩ := htouches.of_access
  obtain ⟨hsegment, hindex⟩ := Prod.mk.inj ((slotOf_eq p).symm.trans hslot)
  rw [← hsegment, ← hindex]
  exact lt_extent (List.mem_of_find?_eq_some hmeaning)

/-- Of the openings only that of a method touches a slot, the one of the hidden argument. -/
theorem opening_bounded {i : Instruction} (hi : i ∈ c.opening s) {segment : Segment}
    {index : UInt16} (hsegment : segment.holdsVariables = true)
    (htouches : i.Touches segment index) : index.toNat < c.extent s segment := by
  have hcell : i.isCell = true := htouches.isCell hsegment
  rcases List.mem_cons.mp hi with rfl | hi
  · cases hcell
  · cases hkind : s.kind with
    | function =>
        rw [hkind] at hi
        cases hi
    | constructor =>
        rw [hkind] at hi
        have hnone : ∀ j ∈ SubroutineKind.constructor.prologue (c.scope.count .field),
            j.isCell = false := by
          simp [SubroutineKind.prologue, pushConstant, Instruction.isCell, Segment.holdsVariables]
        rw [hnone i hi] at hcell
        cases hcell
    | method =>
        rw [hkind] at hi
        rcases List.mem_cons.mp hi with rfl | hi
        · obtain ⟨rfl, rfl⟩ := htouches.of_access (a := .read)
          rw [extent, hkind]
          exact Nat.lt_add_right _ Nat.one_pos
        · obtain rfl := List.mem_singleton.mp hi
          cases hcell

/-! ## Uses find their slots -/

/-- What a partial function makes of a list, element by element. -/
theorem forall₂_filter_filterMap {α β : Type} {r : α → β → Prop} {p : α → Bool} {f : α → Option β}
    {xs : List α} (hsome : ∀ a ∈ xs, ∀ b, f a = some b → p a = true ∧ r a b)
    (hnone : ∀ a ∈ xs, f a = none → p a = false) :
    List.Forall₂ r (xs.filter p) (xs.filterMap f) := by
  induction xs with
  | nil => exact .nil
  | cons a xs ih =>
      obtain ⟨ha, hsome⟩ := List.forall_mem_cons.mp hsome
      obtain ⟨ha', hnone⟩ := List.forall_mem_cons.mp hnone
      cases hf : f a with
      | none =>
          rw [List.filterMap_cons_none hf, List.filter_cons_of_neg (by simp [ha' hf])]
          exact ih hsome hnone
      | some b =>
          rw [List.filterMap_cons_some hf, List.filter_cons_of_pos (ha b hf).1]
          exact .cons (ha b hf).2 (ih hsome hnone)

section Compiled

variable {o : Options} (hthis : c.NeverThis) (hcompiles : (c.output o).fault = none)

include hcompiles

theorem declared_of_compiles (hs : s ∈ c.subroutines) : (c.declared s).1.fault = none :=
  (functionCode_parts ((output_parts hcompiles).2.2 s hs)).1

/-- All numbers of variables in sight fit. -/
theorem visible_fits (hs : s ∈ c.subroutines) {p : Declaration × Nat} (hp : p ∈ c.visible s) :
    fits p = true := by
  rcases List.mem_append.mp hp with hp | hp
  · rw [← s.kind.count_scope c.name.text] at hp
    exact Scope.fits_of_declare (declared_of_compiles hcompiles hs) p hp
  · rw [← Scope.count_empty] at hp
    exact Scope.fits_of_declare (output_parts hcompiles).1 p hp

/-- The opening reserves the local variables and makes room for the fields. -/
theorem opening_eq (hs : s ∈ c.subroutines) :
    c.opening s = .function (c.name.text ++ "." ++ s.name.text) (c.extent s .locals) ::
      s.kind.prologue (c.extent s .this) := by
  have hlocals : (c.frame s).scope.count .localVar = c.extent s .locals := by
    refine (Scope.declare_count (declared_of_compiles hcompiles hs) .localVar).trans ?_
    rw [s.kind.count_scope, s.kind.hidden_localVar, Nat.zero_add, s.countP_declarations.2]
    rfl
  have hfields : c.scope.count .field = c.extent s .this := by
    refine (Scope.declare_count (output_parts hcompiles).1 .field).trans ?_
    rw [Scope.count_empty, Nat.zero_add]
    rfl
  rw [opening, hlocals, hfields]

theorem bodyCode_cells (hs : s ∈ c.subroutines) :
    (c.bodyCode o s).items.filter Instruction.isCell = s.uses.filterMap (c.frame s).cell? :=
  emitBlock_follows o s.body.block .zero ((output_finished hcompiles).2 s hs)

include hthis

/-- A variable that is read or set is declared. -/
theorem declares_of_usesVariable (hs : s ∈ c.subroutines) {u : Use} (hu : u ∈ s.uses)
    (hvariable : c.usesVariable s u = true) : c.declares s u.name.text = true := by
  obtain ⟨access, n⟩ := u
  have hmention := Subroutine.mention_mem hu
  by_contra hnot
  have hall := declares_eq_false_iff.mp (Bool.eq_false_iff.mpr hnot)
  have hnone : c.offences = [] := by
    rw [output_fault o hthis] at hcompiles
    exact List.head?_eq_none_iff.mp hcompiles
  have hnever : .name .variable n ∉ s.mentions := by
    intro hmem
    have hoffence := mem_offences_iff.mpr (.undeclared hs hmem hall)
    rw [hnone] at hoffence
    cases hoffence
  cases access with
  | read | write => exact hnever hmention
  | receiver => exact hnot hvariable

/-- The instruction of a use is that of the declaration that its name means. -/
theorem cell?_eq (hs : s ∈ c.subroutines) {u : Use} (hu : u ∈ s.uses) :
    (c.frame s).cell? u = (c.meaning? s u.name.text).map fun p =>
      u.access.instruction p.1.kind.segment (UInt16.ofNat p.2) := by
  have hname : u.name.text ≠ "this" := hthis s hs _ _ (Subroutine.mention_mem hu)
  rw [Frame.cell?, frame_lookup? (output_parts hcompiles).1 (declared_of_compiles hcompiles hs)
    hname, Option.map_map]
  rfl

theorem resolves_of_cell? (hs : s ∈ c.subroutines) {u : Use} (hu : u ∈ s.uses) {i : Instruction}
    (hi : (c.frame s).cell? u = some i) : c.Resolves s u i := by
  rw [cell?_eq hthis hcompiles hs hu] at hi
  obtain ⟨p, hmeaning, rfl⟩ := Option.map_eq_some_iff.mp hi
  refine ⟨p, p.1.kind.segment, UInt16.ofNat p.2, hmeaning, ?_, rfl⟩
  have hfits := visible_fits hcompiles hs (List.mem_of_find?_eq_some hmeaning)
  have hlt : p.2 < maxVariables := by simpa [fits] using hfits
  rw [slotOf_eq, UInt16.toNat_ofNat_of_lt' (Nat.lt_trans hlt (by decide))]

/-- The cells of a finished body are those of the variables that are used. -/
theorem bodyCode_resolves (hs : s ∈ c.subroutines) :
    List.Forall₂ (c.Resolves s) (s.uses.filter (c.usesVariable s))
      ((c.bodyCode o s).items.filter Instruction.isCell) := by
  rw [bodyCode_cells hcompiles hs]
  apply forall₂_filter_filterMap
  · intro u hu i hcell
    have hresolves := resolves_of_cell? hthis hcompiles hs hu hcell
    refine ⟨?_, hresolves⟩
    obtain ⟨p, segment, index, hmeaning, -⟩ := hresolves
    rw [usesVariable, ← meaning?_isSome, hmeaning]
    exact Bool.or_true _
  · -- Only a receiver can lack a cell, since every other use of an undeclared name is an offence.
    intro u hu hcell
    by_contra huses
    have hdeclares := declares_of_usesVariable hthis hcompiles hs hu
      (Bool.eq_true_of_not_eq_false huses)
    rw [cell?_eq hthis hcompiles hs hu, Option.map_eq_none_iff] at hcell
    rw [← meaning?_isSome, hcell] at hdeclares
    cases hdeclares

/-- The code of a subroutine touches no slot beyond those that there are. -/
theorem function_bounded (hs : s ∈ c.subroutines) {i : Instruction}
    (hi : i ∈ c.opening s ++ (c.bodyCode o s).items) {segment : Segment} {index : UInt16}
    (hsegment : segment.holdsVariables = true) (htouches : i.Touches segment index) :
    index.toNat < c.extent s segment := by
  rcases List.mem_append.mp hi with hi | hi
  · exact opening_bounded hi hsegment htouches
  · have hcell : i ∈ s.uses.filterMap (c.frame s).cell? := by
      rw [← bodyCode_cells hcompiles hs]
      exact List.mem_filter.mpr ⟨hi, htouches.isCell hsegment⟩
    obtain ⟨u, hu, hucell⟩ := List.mem_filterMap.mp hcell
    exact (resolves_of_cell? hthis hcompiles hs hu hucell).bounded htouches

end Compiled

/-- In a class that compiles, every variable that is used is read or set in the slot of the first
declaration of its name, in the subroutine or else in the class; the slots in sight of a subroutine
are all different; and its function touches no others. -/
theorem functions_allocate {source : String} {tree : ClassTree}
    (h : (parse source).outcome = .ok tree) {o : Options}
    (hcompiles : (tree.output o).fault = none) :
    List.Forall₂ tree.Allocates tree.subroutines (functions (tree.output o).items) := by
  rw [functions_output hcompiles, List.forall₂_map_right_iff, List.forall₂_same]
  intro s hs
  have hthis := neverThis_of_parse h
  refine ⟨s.usesOf, ⟨(tree.bodyCode o s).items, ?_, bodyCode_resolves hthis hcompiles hs⟩,
    slots_nodup tree s, fun i hi segment index => function_bounded hthis hcompiles hs hi⟩
  rw [opening_eq hcompiles hs]
  rfl

end ClassTree

/-- A class with a parameter that shadows a field and itself, a local variable behind a parameter of
its name, a class variable declared after it is used, and a receiver that is no variable. -/
def shadowSource : String :=
  "class A{field A x;method A f(A x,A x,A y){var A y,z;let z=B.g(x);let y[k]=y.s();}static A k,k;}"

theorem shadowSource_allocates : ∃ tree, (parse shadowSource).outcome = .ok tree ∧
    (tree.output .standard).fault = none ∧
    tree.subroutines.map tree.slots = [[(.argument, 0), (.argument, 1), (.argument, 2),
      (.argument, 3), (.locals, 0), (.locals, 1), (.this, 0), (.static, 0), (.static, 1)]] ∧
    (functions (tree.output .standard).items).map (·.filter Instruction.isCell) =
      [[.push .argument 0, .push .argument 1, .pop .locals 1, .push .static 0, .push .argument 3,
        .push .argument 3]] ∧
    List.Forall₂ tree.Allocates tree.subroutines (functions (tree.output .standard).items) := by
  have hrun : (parse shadowSource).outcome.toOption.map (fun tree =>
      ((tree.output .standard).fault.isNone, tree.subroutines.map tree.slots,
        (functions (tree.output .standard).items).map (·.filter Instruction.isCell))) =
      some (true, [[(.argument, 0), (.argument, 1), (.argument, 2), (.argument, 3), (.locals, 0),
        (.locals, 1), (.this, 0), (.static, 0), (.static, 1)]],
        [[.push .argument 0, .push .argument 1, .pop .locals 1, .push .static 0,
          .push .argument 3, .push .argument 3]]) := by
    decide +kernel
  rcases hparse : (parse shadowSource).outcome with e | tree
  · rw [hparse] at hrun
    cases hrun
  · rw [hparse] at hrun
    obtain ⟨hfault, hrest⟩ := Prod.mk.inj (Option.some_inj.mp hrun)
    obtain ⟨hslots, hcells⟩ := Prod.mk.inj hrest
    have hcompiles := Option.isNone_iff_eq_none.mp hfault
    exact ⟨tree, rfl, hcompiles, hslots, hcells, ClassTree.functions_allocate hparse hcompiles⟩

end JackCompiler
