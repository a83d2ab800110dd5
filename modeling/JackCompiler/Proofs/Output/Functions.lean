import JackCompiler.Proofs.Output.Straight
import Mathlib.Data.List.Basic

/-!
# The functions of a class

The output of a class is the output of its subroutines, one function each, in source order. A
function begins with its line and the prologue of its kind of subroutine, and its body is the block
of the subroutine compiled in the frame of the subroutine with counters at zero. The records of
compiling a class stand in the same order, with notes and declarations before the code.

## Implementation notes

Trails are joined even where a subroutine is stopped, so `ClassTree.output_eq` holds of every class.
Splitting the listing at its function lines needs a class that compiles.
-/

namespace JackCompiler

namespace Trail

/-- The instructions among the records of a trail. -/
def instructions (t : Trail Record) : Code :=
  ⟨t.items.filterMap Record.instruction?, t.fault⟩

theorem instructions_append (a b : Trail Record) :
    (a ++ b).instructions = a.instructions ++ b.instructions := by
  rcases a with ⟨xs, _ | e⟩
  · exact congrArg (Trail.mk · b.fault) List.filterMap_append
  · rfl

theorem instructions_map_instruction (t : Code) :
    (t.map Record.instruction).instructions = t := by
  rcases t with ⟨items, fault⟩
  simp [instructions, map, List.filterMap_map, Function.comp_def, Record.instruction?]

/-- Trails joined in order. -/
def join {α : Type} (ts : List (Trail α)) : Trail α :=
  ts.foldr (· ++ ·) (of [])

theorem join_cons {α : Type} (t : Trail α) (ts : List (Trail α)) :
    join (t :: ts) = t ++ join ts := rfl

theorem instructions_join (ts : List (Trail Record)) :
    (join ts).instructions = join (ts.map instructions) := by
  induction ts with
  | nil => rfl
  | cons t ts ih => rw [join_cons, instructions_append, ih, List.map_cons, join_cons]

/-- A join that was not stopped has the items of its parts in order. -/
theorem join_finished {α : Type} {ts : List (Trail α)} (h : (join ts).fault = none) :
    (join ts).items = ts.flatMap Trail.items ∧ ∀ t ∈ ts, t.fault = none := by
  induction ts with
  | nil => exact ⟨rfl, fun t ht => absurd ht List.not_mem_nil⟩
  | cons t ts ih =>
      rw [join_cons] at h ⊢
      obtain ⟨ht, hts⟩ := fault_append_eq_none_iff.mp h
      obtain ⟨hitems, hall⟩ := ih hts
      refine ⟨?_, ?_⟩
      · rw [items_append ht, hitems, List.flatMap_cons]
      · intro u hu
        rcases List.mem_cons.mp hu with rfl | hu
        · exact ht
        · exact hall u hu

end Trail

/-- Declaring variables makes no instructions. -/
theorem Scope.declareOnto_instructions (ds : List Declaration) (s : Scope) (records : List Record)
    (h : ∀ r ∈ records, r.instruction? = none) :
    (s.declareOnto ds records).1.instructions = ⟨[], (s.declareOnto ds records).1.fault⟩ := by
  have hnone : ∀ rs : List Record, (∀ r ∈ rs, r.instruction? = none) →
      rs.reverse.filterMap Record.instruction? = [] := by
    intro rs hrs
    exact List.filterMap_eq_nil_iff.mpr fun r hr => hrs r (List.mem_reverse.mp hr)
  induction ds generalizing s records with
  | nil =>
      simp only [Scope.declareOnto, Trail.instructions, Trail.of, hnone records h]
  | cons d ds ih =>
      rw [Scope.declareOnto]
      split
      · apply ih
        intro r hr
        rcases List.mem_append.mp hr with hr | hr
        · obtain ⟨v, -, rfl⟩ := Option.map_eq_some_iff.mp (Option.mem_toList.mp hr)
          rfl
        · exact h r hr
      · simp only [Trail.instructions, hnone records h]

theorem Scope.declare_instructions (s : Scope) (ds : List Declaration) :
    (s.declare ds).1.instructions = ⟨[], (s.declare ds).1.fault⟩ :=
  s.declareOnto_instructions ds [] fun _ hr => absurd hr List.not_mem_nil

namespace ClassTree

/-- The instructions that a class is compiled to, and the complaint that stopped them. -/
def output (o : Options) (c : ClassTree) : Code :=
  (Generator.new.compile o c).1.instructions

/-- The variables of a class. -/
def scope (c : ClassTree) : Scope :=
  (Scope.empty.declare c.declarations).2

/-- The declaration of the variables of a subroutine, with the scope that results. -/
def declared (c : ClassTree) (s : Subroutine) : Trail Record × Scope :=
  (s.kind.scope c.name.text).declare s.declarations

/-- Where the statements of a subroutine stand. -/
def frame (c : ClassTree) (s : Subroutine) : Frame :=
  ⟨c.name.text, c.scope, (c.declared s).2⟩

/-- The function line of a subroutine and the prologue after it. -/
def opening (c : ClassTree) (s : Subroutine) : List Instruction :=
  .function (c.name.text ++ "." ++ s.name.text) ((c.frame s).scope.count .localVar) ::
    s.kind.prologue (c.scope.count .field)

/-- The code of the statements of a subroutine. -/
def bodyCode (o : Options) (c : ClassTree) (s : Subroutine) : Code :=
  (emitBlock o (c.frame s) s.body.block .zero).1

/-- The code of a subroutine, stopped where its declarations are. -/
def functionCode (o : Options) (c : ClassTree) (s : Subroutine) : Code :=
  ⟨[], (c.declared s).1.fault⟩ ++ (.of (c.opening s) ++ c.bodyCode o s)

/-- The note that a subroutine is compiled. -/
def functionNote (c : ClassTree) (s : Subroutine) : Record :=
  .compilingSubroutine s.kind (c.name.text ++ "." ++ s.name.text)

/-- The records of compiling a subroutine: the note of it, its declarations and its code. -/
def functionRecords (o : Options) (c : ClassTree) (s : Subroutine) : Trail Record :=
  .of [c.functionNote s] ++ (c.declared s).1 ++
    Trail.map .instruction (.of (c.opening s) ++ c.bodyCode o s)

/-- The instructions among the records of compiling a subroutine are its code. -/
theorem functionRecords_instructions (o : Options) (c : ClassTree) (s : Subroutine) :
    (c.functionRecords o s).instructions = c.functionCode o s := by
  have hdeclared : (c.declared s).1.instructions = ⟨[], (c.declared s).1.fault⟩ :=
    Scope.declare_instructions _ _
  rw [functionRecords, Trail.instructions_append, Trail.instructions_append, hdeclared,
    Trail.instructions_map_instruction]
  rfl

end ClassTree

namespace Generator

/-- A generator is inside a class once it has declared the variables of the class. -/
def Inside (g : Generator) (c : ClassTree) : Prop :=
  g.className = c.name.text ∧ g.classScope = c.scope

theorem emit_append_fst (is : List Instruction) (e : Emitter) (c : Counters) :
    ((Emitter.emit is ++ e) c).1 = .of is ++ (e c).1 := rfl

/-- Inside a class each subroutine is compiled with its own records and leaves the class as it was.
-/
theorem subroutine_spec (o : Options) {g : Generator} {c : ClassTree} (hg : g.Inside c)
    (s : Subroutine) :
    (g.subroutine o s).1 = c.functionRecords o s ∧ (g.subroutine o s).2.Inside c := by
  rcases g with ⟨name, classScope, scope, counters⟩
  obtain ⟨hname, hscope⟩ := hg
  dsimp only at hname hscope
  subst hname hscope
  unfold subroutine ClassTree.functionRecords
  dsimp only
  rw [← ClassTree.declared]
  rcases hd : c.declared s with ⟨⟨records, _ | e⟩, scope'⟩
  · dsimp only [Trail.of_append]
    refine ⟨?_, rfl, rfl⟩
    simp only [emitSubroutine, emit_append_fst, ClassTree.opening, ClassTree.bodyCode,
      ClassTree.frame, hd]
    rfl
  · exact ⟨rfl, rfl, rfl⟩

/-- Inside a class a list of subroutines is compiled with the records of each, joined. -/
theorem subroutines_spec (o : Options) {c : ClassTree} (ss : List Subroutine) {g : Generator}
    (hg : g.Inside c) : (g.subroutines o ss).1 = .join (ss.map (c.functionRecords o)) := by
  induction ss generalizing g with
  | nil => rfl
  | cons s ss ih =>
      obtain ⟨hrecords, hinside⟩ := subroutine_spec o hg s
      rw [List.map_cons, Trail.join_cons, ← hrecords]
      rcases hs : g.subroutine o s with ⟨⟨records, _ | e⟩, g'⟩
      · rw [hs] at hinside
        rw [← ih hinside]
        simp only [subroutines, hs]
        rfl
      · simp only [subroutines, hs]
        rfl

end Generator

namespace ClassTree

/-- The records of compiling a class: what is compiled, its declarations and its subroutines. -/
theorem records_eq (o : Options) (c : ClassTree) : (Generator.new.compile o c).1 =
    .of [.compilingClass c.name.text] ++ (Scope.empty.declare c.declarations).1 ++
      .join (c.subroutines.map (c.functionRecords o)) := by
  unfold Generator.compile
  dsimp only
  rcases hd : Scope.empty.declare c.declarations with ⟨⟨records, _ | e⟩, scope⟩
  · dsimp only [Trail.of_append]
    rw [Generator.subroutines_spec o c.subroutines ⟨rfl, congrArg Prod.snd hd.symm⟩]
  · rfl

/-- The output of a class is that of its subroutines, stopped where its declarations are. -/
theorem output_eq (o : Options) (c : ClassTree) :
    c.output o = ⟨[], (Scope.empty.declare c.declarations).1.fault⟩ ++
      .join (c.subroutines.map (c.functionCode o)) := by
  rw [output, records_eq, Trail.instructions_append, Trail.instructions_append,
    Scope.declare_instructions, Trail.instructions_join, List.map_map]
  simp only [Function.comp_def, functionRecords_instructions]
  rfl

/-- A class that compiles has declared its variables and finished its functions. -/
theorem output_parts {o : Options} {c : ClassTree} (h : (c.output o).fault = none) :
    (Scope.empty.declare c.declarations).1.fault = none ∧
      (c.output o).items = c.subroutines.flatMap (fun s => (c.functionCode o s).items) ∧
      ∀ s ∈ c.subroutines, (c.functionCode o s).fault = none := by
  rw [output_eq] at h ⊢
  obtain ⟨hdecl, hjoin⟩ := Trail.fault_append_eq_none_iff.mp h
  obtain ⟨hitems, hall⟩ := Trail.join_finished hjoin
  refine ⟨hdecl, ?_, fun s hs => hall _ (List.mem_map_of_mem hs)⟩
  rw [Trail.items_append hdecl, hitems, List.flatMap_map, List.nil_append]

/-- A function that is finished has declared its variables and finished its body. -/
theorem functionCode_parts {o : Options} {c : ClassTree} {s : Subroutine}
    (h : (c.functionCode o s).fault = none) :
    (c.declared s).1.fault = none ∧ (c.bodyCode o s).fault = none ∧
      (c.functionCode o s).items = c.opening s ++ (c.bodyCode o s).items := by
  obtain ⟨hdeclared, hrest⟩ := Trail.fault_append_eq_none_iff.mp h
  refine ⟨hdeclared, (Trail.fault_append_eq_none_iff.mp hrest).2, ?_⟩
  rw [functionCode, Trail.items_append hdeclared]
  rfl

/-- A class that compiles has its functions one after the other, and every body is finished. -/
theorem output_finished {o : Options} {c : ClassTree} (h : (c.output o).fault = none) :
    (c.output o).items =
        c.subroutines.flatMap (fun s => c.opening s ++ (c.bodyCode o s).items) ∧
      ∀ s ∈ c.subroutines, (c.bodyCode o s).fault = none := by
  obtain ⟨-, hitems, hall⟩ := output_parts h
  refine ⟨?_, fun s hs => (functionCode_parts (hall s hs)).2.1⟩
  rw [hitems]
  exact List.flatMap_congr fun s hs => (functionCode_parts (hall s hs)).2.2

/-- Whatever holds of the instructions of all subroutines holds of the output, stopped or not. -/
theorem output_all {o : Options} {c : ClassTree} {p : Instruction → Prop}
    (h : ∀ s ∈ c.subroutines, Code.All p (.of (c.opening s)) ∧ (c.bodyCode o s).All p) :
    (c.output o).All p := by
  have hjoin : ∀ ss : List Subroutine, (∀ s ∈ ss, Code.All p (.of (c.opening s)) ∧
      (c.bodyCode o s).All p) → Code.All p (.join (ss.map (c.functionCode o))) := by
    intro ss hss
    induction ss with
    | nil => exact Code.All.nil
    | cons s ss ih =>
        obtain ⟨hs, hss⟩ := List.forall_mem_cons.mp hss
        exact .append (.append (fun _ hi => absurd hi List.not_mem_nil) (.append hs.1 hs.2))
          (ih hss)
  rw [output_eq]
  exact .append (fun _ hi => absurd hi List.not_mem_nil) (hjoin c.subroutines h)

/-- The code of a subroutine that is finished was emitted from counters at zero. -/
theorem bodyCode_emits {o : Options} {c : ClassTree} {s : Subroutine}
    (h : (c.bodyCode o s).fault = none) :
    (emitBlock o (c.frame s) s.body.block).Emits .zero (c.bodyCode o s).items
      (emitBlock o (c.frame s) s.body.block .zero).2 :=
  Prod.ext (Trail.eq_mk_iff.mpr ⟨h, rfl⟩) rfl

end ClassTree

/-! ## Splitting a listing -/

/-- The instructions of a listing before its first function line, and the functions after them. -/
def splitFunctions : List Instruction → List Instruction × List (List Instruction)
  | [] => ([], [])
  | i :: is =>
      let (before, fs) := splitFunctions is
      if i.isFunction then ([], (i :: before) :: fs) else (i :: before, fs)

/-- The functions of a listing, each from its function line up to the next one. -/
def functions (code : List Instruction) : List (List Instruction) :=
  (splitFunctions code).2

theorem splitFunctions_append {xs : List Instruction} (h : ∀ i ∈ xs, i.isFunction = false)
    (ys : List Instruction) :
    splitFunctions (xs ++ ys) = (xs ++ (splitFunctions ys).1, (splitFunctions ys).2) := by
  induction xs with
  | nil => rfl
  | cons i xs ih =>
      have hi : i.isFunction = false := h i (by simp)
      have ht := ih fun j hj => h j (List.mem_cons_of_mem i hj)
      simp only [List.cons_append, splitFunctions, ht, hi, Bool.false_eq_true, if_false]

/-- A listing made of functions splits into them. -/
theorem splitFunctions_flatMap {α : Type} (fs : List α) (code : α → List Instruction)
    (h : ∀ a ∈ fs, ∃ i is, code a = i :: is ∧ i.isFunction = true ∧
      ∀ j ∈ is, j.isFunction = false) :
    splitFunctions (fs.flatMap code) = ([], fs.map code) := by
  induction fs with
  | nil => rfl
  | cons a fs ih =>
      obtain ⟨i, is, hcode, hi, his⟩ := h a (by simp)
      have ht := ih fun b hb => h b (List.mem_cons_of_mem a hb)
      rw [List.flatMap_cons, List.map_cons, hcode, List.cons_append, splitFunctions,
        splitFunctions_append his, ht]
      simp [hi]

theorem Instruction.OfStmt.isFunction {f : Frame} {ms : List Mention} {i : Instruction}
    (h : OfStmt f ms i) : i.isFunction = false := by
  cases h with
  | expr h => exact isFunction_of_isStraight h.isStraight
  | _ => rfl

namespace ClassTree

variable {o : Options} {c : ClassTree}

/-- Behind its first line the code of a subroutine has no function line. -/
theorem isFunction_of_mem {s : Subroutine} {fields : Nat} {i : Instruction}
    (hi : i ∈ s.kind.prologue fields ++ (c.bodyCode o s).items) : i.isFunction = false := by
  rcases List.mem_append.mp hi with hi | hi
  · exact Instruction.isFunction_of_isStraight (s.kind.prologue_isStraight _ i hi)
  · exact (emitBlock_ofStmt o _ (List.Subset.refl _) _ i hi).isFunction

variable (h : (c.output o).fault = none)
include h

/-- The listing of a class that compiles splits into one function for each subroutine. -/
theorem functions_output : functions (c.output o).items =
    c.subroutines.map fun s => c.opening s ++ (c.bodyCode o s).items := by
  rw [(output_finished h).1, functions, splitFunctions_flatMap]
  intro s _
  exact ⟨_, _, rfl, rfl, fun i hi => isFunction_of_mem hi⟩

end ClassTree

end JackCompiler
