import JackCompiler.Proofs.Journal.Reading
import JackCompiler.Proofs.Journal.Redefinitions
import JackCompiler.Proofs.Output.Reading
import JackCompiler.Proofs.Words.Beyond

/-!
# The journal of a compilation

The journal of a compilation tells what was done. It traces the tokens of the source as they are
scanned and then the instructions as they are written, and it warns of the declarations whose names
their scopes held already. All else in it is notes.
-/

namespace JackCompiler

/-- The records of a journal at a level. -/
def recordsAt (l : Level) (rs : List Record) : List Record :=
  rs.filter fun r => r.level == l

theorem recordsAt_append (l : Level) (rs rs' : List Record) :
    recordsAt l (rs ++ rs') = recordsAt l rs ++ recordsAt l rs' :=
  List.filter_append _ _

theorem recordsAt_flatMap {α : Type} (l : Level) (as : List α) (f : α → List Record) :
    recordsAt l (as.flatMap f) = as.flatMap fun a => recordsAt l (f a) :=
  List.filter_flatMap

/-- Notes can be left out before records of another level are asked for. -/
theorem recordsAt_filter {l : Level} (hl : l ≠ .debug) (rs : List Record) :
    recordsAt l (rs.filter fun r => r.level != .debug) = recordsAt l rs := by
  rw [recordsAt, recordsAt, List.filter_filter]
  refine List.filter_congr fun r _ => ?_
  by_cases hr : r.level = l <;> simp [hr, hl]

/-- A note is a record of no other level. -/
theorem recordsAt_note {l : Level} (hl : l ≠ .debug) {r : Record} (hr : r.level = .debug)
    (rs : List Record) : recordsAt l (r :: rs) = recordsAt l rs :=
  List.filter_cons_of_neg (by simp [hr, hl.symm])

/-- Records that are all of one level are the ones at this level, and there are none at others. -/
theorem recordsAt_of_forall {l m : Level} {rs : List Record} (h : ∀ r ∈ rs, r.level = m) :
    recordsAt l rs = if m = l then rs else [] := by
  by_cases hl : m = l
  · rw [if_pos hl]
    exact List.filter_eq_self.mpr fun r hr => by simp [h r hr, hl]
  · rw [if_neg hl]
    exact List.filter_eq_nil_iff.mpr fun r hr => by simp [h r hr, hl]

theorem recordsAt_scanned (l : Level) (ts : List Token) :
    recordsAt l (ts.map .scanned) = if Level.trace = l then ts.map .scanned else [] := by
  refine recordsAt_of_forall fun r hr => ?_
  obtain ⟨t, -, rfl⟩ := List.mem_map.mp hr
  rfl

theorem recordsAt_instruction (l : Level) (is : List Instruction) :
    recordsAt l (is.map .instruction) = if Level.trace = l then is.map .instruction else [] := by
  refine recordsAt_of_forall fun r hr => ?_
  obtain ⟨i, -, rfl⟩ := List.mem_map.mp hr
  rfl

theorem recordsAt_redefinitions (l : Level) (ds : List Declaration) :
    recordsAt l (redefinitions ds) = if Level.warn = l then redefinitions ds else [] :=
  recordsAt_of_forall fun _ hr => level_of_mem_redefinitions hr

/-! ## Compiling a class -/

namespace ClassTree

variable {o : Options} {c : ClassTree} {s : Subroutine}

/-- No variable is declared under the name of the hidden argument. -/
structure NoneNamedThis (c : ClassTree) : Prop where
  outer : ∀ d ∈ c.declarations, d.name.text ≠ "this"
  inner : ∀ s ∈ c.subroutines, ∀ d ∈ s.declarations, d.name.text ≠ "this"

/-- The records of compiling a subroutine, up to the end of its code. -/
theorem functionRecords_items (hnames : ∀ d ∈ s.declarations, d.name.text ≠ "this")
    (h : (c.functionCode o s).fault = none) : (c.functionRecords o s).items =
      c.functionNote s ::
        (redefinitions s.declarations ++ (c.functionCode o s).items.map .instruction) := by
  obtain ⟨hdeclared, -, hcode⟩ := functionCode_parts h
  rw [functionRecords, Trail.append_assoc, Trail.of_append]
  dsimp only
  rw [Trail.items_append hdeclared, declared_items hnames hdeclared, hcode]
  rfl

/-- The records of compiling a class, up to the end of its code. -/
theorem records_items (hthis : c.NoneNamedThis) (h : (c.output o).fault = none) :
    (Generator.new.compile o c).1.items =
      .compilingClass c.name.text :: (redefinitions c.declarations ++
        c.subroutines.flatMap fun s => c.functionNote s ::
          (redefinitions s.declarations ++ (c.functionCode o s).items.map .instruction)) := by
  obtain ⟨hclass, -, hsubroutines⟩ := output_parts h
  have hjoin : (Trail.join (c.subroutines.map (c.functionRecords o))).fault = none := by
    have hfault : (Generator.new.compile o c).1.fault = none := h
    rw [records_eq] at hfault
    exact (Trail.fault_append_eq_none_iff.mp hfault).2
  have hitems := List.flatMap_congr fun s hs =>
    functionRecords_items (hthis.inner s hs) (hsubroutines s hs)
  rw [records_eq, Trail.append_assoc, Trail.of_append]
  dsimp only
  rw [Trail.items_append hclass, declare_items hthis.outer hclass,
    (Trail.join_finished hjoin).1, List.flatMap_map, hitems]
  rfl

/-- But for notes, compiling a class leaves redefinitions and instructions. -/
theorem recordsAt_items {l : Level} (hl : l ≠ .debug) (hthis : c.NoneNamedThis)
    (h : (c.output o).fault = none) : recordsAt l (Generator.new.compile o c).1.items =
      recordsAt l (redefinitions c.declarations) ++ c.subroutines.flatMap fun s =>
        recordsAt l (redefinitions s.declarations) ++
          recordsAt l ((c.functionCode o s).items.map .instruction) := by
  rw [records_items hthis h, recordsAt_note hl rfl, recordsAt_append, recordsAt_flatMap]
  refine congrArg (recordsAt l (redefinitions c.declarations) ++ ·) ?_
  refine List.flatMap_congr fun s _ => ?_
  rw [recordsAt_note hl rfl, recordsAt_append]

/-- What is traced while a class is compiled are its instructions. -/
theorem recordsAt_trace (hthis : c.NoneNamedThis) (h : (c.output o).fault = none) :
    recordsAt .trace (Generator.new.compile o c).1.items =
      (c.output o).items.map .instruction := by
  rw [recordsAt_items (by decide) hthis h, (output_parts h).2.1, List.map_flatMap]
  simp [recordsAt_redefinitions, recordsAt_instruction]

/-- The warnings while a class is compiled are the redefinitions in it, those of the class first and
then those of each subroutine. -/
theorem recordsAt_warn (hthis : c.NoneNamedThis) (h : (c.output o).fault = none) :
    recordsAt .warn (Generator.new.compile o c).1.items = redefinitions c.declarations ++
      c.subroutines.flatMap fun s => redefinitions s.declarations := by
  rw [recordsAt_items (by decide) hthis h]
  simp [recordsAt_redefinitions, recordsAt_instruction]

end ClassTree

/-! ## Sources -/

variable {source text : String} {tree : ClassTree} {o : Options}

theorem noneNamedThis_of_parse (h : (parse source).outcome = .ok tree) : tree.NoneNamedThis := by
  obtain ⟨hdecomposes, hwritten⟩ := parse_ok_writtenIn h
  refine ⟨fun d hd => ?_, fun s hs d hd => ?_⟩
  · have hwrites := hwritten.names d.name (List.mem_cons_of_mem _ (List.mem_map_of_mem hd))
    exact (hdecomposes.isNameText_of_writtenBy hwrites).not_keyword .this
  · exact neverThis_of_parse h s hs _ _ (Subroutine.declared_mem_mentions hd)

theorem compile_records (h : (parse source).outcome = .ok tree) (o : Options) :
    (compile o source).records =
      (parse source).records ++ (Generator.new.compile o tree).1.items :=
  Report.compiled_records h

section Compiles

variable (hparse : (parse source).outcome = .ok tree) (hcompiles : (tree.output o).fault = none)
include hparse hcompiles

/-- A source that compiles is warned of the redefinitions in its class. -/
theorem compile_warnings : recordsAt .warn (compile o source).records =
    redefinitions tree.declarations ++
      tree.subroutines.flatMap fun s => redefinitions s.declarations := by
  obtain ⟨ts, eof, -, -, -, -, hread⟩ := parse_ok_records hparse
  rw [compile_records hparse, recordsAt_append, ← recordsAt_filter (by decide), hread,
    recordsAt_scanned, if_neg (by decide), List.nil_append,
    ClassTree.recordsAt_warn (noneNamedThis_of_parse hparse) hcompiles]

/-- There is no warning exactly if all names of each scope are different. -/
theorem compile_warnings_eq_nil_iff : recordsAt .warn (compile o source).records = [] ↔
    (tree.declarations.map (·.name.text)).Nodup ∧
      ∀ s ∈ tree.subroutines, (s.declarations.map (·.name.text)).Nodup := by
  rw [compile_warnings hparse hcompiles, List.append_eq_nil_iff, List.flatMap_eq_nil_iff]
  simp only [redefinitions_eq_nil_iff]

end Compiles

/-- The journal of a source that compiles, if words reach to its end, tells what was done. It traces
the tokens of the source in order, each of them once but the end twice, and then the instructions
whose texts are the lines of the listing. It warns of each declaration whose name has been declared
before in the same scope, first of those of the class and then of those of each subroutine, with the
kind of the first declaration of the name. -/
theorem Program.compile_ok_records (hsize : byteCount source.toList ≤ maxOffset)
    (h : (Program.compile o source).outcome = .ok text) :
    ∃ (tree : ClassTree) (ts : List Token) (eof : Token),
      (Program.parse source).outcome = .ok tree ∧
      Program.tokens? source = some (ts ++ [eof], none) ∧ eof.kind = .finish ∧
      (∀ t ∈ ts, t.kind ≠ .finish) ∧ ts.Nodup ∧
      recordsAt .trace (Program.compile o source).records =
        (ts ++ [eof, eof]).map .scanned ++ (tree.output o).items.map .instruction ∧
      textLines text = (tree.output o).items.map (·.text.toList) ++ [[]] ∧
      recordsAt .warn (Program.compile o source).records = redefinitions tree.declarations ++
        tree.subroutines.flatMap fun s => redefinitions s.declarations := by
  rw [compile_of_le hsize] at h ⊢
  rw [parse_of_le hsize, tokens?_of_le hsize]
  obtain ⟨tree, hparse, hcompiles, rfl⟩ := compile_ok_iff.mp h
  obtain ⟨-, hfault⟩ := decomposes_iff.mp (parse_ok_writtenIn hparse).1
  obtain ⟨ts, eof, hts, hk, hkinds, hnodup, hread⟩ := parse_ok_records hparse
  have htwice : tokensOf source ++ [eof] = ts ++ [eof, eof] := by
    rw [hts, List.append_assoc]
    rfl
  refine ⟨tree, ts, eof, hparse, by rw [hts, hfault], hk, hkinds, hnodup, ?_,
    textLines_listing (output_legible hparse o), compile_warnings hparse hcompiles⟩
  rw [compile_records hparse, recordsAt_append, ← recordsAt_filter (by decide), hread, htwice,
    recordsAt_scanned, if_pos rfl,
    ClassTree.recordsAt_trace (noneNamedThis_of_parse hparse) hcompiles]

/-- A class with two variables of one name, and with a local variable that is named like a parameter
next to one that is named like the variables of the class. -/
def shadowingSource : String :=
  "class A \x7b field int a; static int a; " ++
    "method void f(int b) \x7b var int a, b; return; \x7d \x7d"

theorem shadowingSource_records : byteCount shadowingSource.toList ≤ maxOffset ∧
    ∃ text, (Program.compile .standard shadowingSource).outcome = .ok text ∧
    recordsAt .warn (Program.compile .standard shadowingSource).records =
      [.redefined .field "a" .static, .redefined .argument "b" .localVar] ∧
    textLines text = ["function A.f 2", "push argument 0", "pop pointer 0", "push constant 0",
      "return", ""].map String.toList := by
  have hsize : byteCount shadowingSource.toList ≤ maxOffset := by
    decide +kernel
  have hcompiles : (Program.compile .standard shadowingSource).outcome.isOk = true := by
    rw [Program.compile_of_le hsize]
    decide +kernel
  have hparts : (Program.parse shadowingSource).outcome.toOption.map (fun tree =>
      (redefinitions tree.declarations ++ tree.subroutines.flatMap fun s =>
        redefinitions s.declarations, (tree.output .standard).items.map (·.text.toList))) =
      some ([.redefined .field "a" .static, .redefined .argument "b" .localVar],
        ["function A.f 2", "push argument 0", "pop pointer 0", "push constant 0",
          "return"].map String.toList) := by
    rw [Program.parse_of_le hsize]
    decide +kernel
  rcases houtcome : (Program.compile .standard shadowingSource).outcome with e | text
  · rw [houtcome] at hcompiles
    cases hcompiles
  · obtain ⟨tree, ts, eof, hparse, -, -, -, -, -, hlines, hwarnings⟩ :=
      Program.compile_ok_records hsize houtcome
    rw [hparse] at hparts
    obtain ⟨hredefinitions, htexts⟩ := Prod.mk.inj (Option.some_inj.mp hparts)
    refine ⟨hsize, text, rfl, hwarnings.trans hredefinitions, ?_⟩
    rw [hlines, htexts]
    rfl

/-- Where words do not reach to the end of a source, the instructions in its journal need not be the
lines of its text. -/
theorem wrappedSource_records : ∃ text,
    (Program.compile .standard wrappedSource).outcome = .ok text ∧
      textLines text ≠ ((Program.compile .standard wrappedSource).records.filterMap
        Record.instruction?).map (·.text.toList) ++ [[]] := by
  obtain ⟨tree, records, hparse, h⟩ := wrappedSource_parse
  have houtcome : (Program.parse wrappedSource).outcome = .ok tree := by rw [hparse]
  refine ⟨_, Report.compiled_ok_iff.mpr ⟨tree, houtcome, h.compiles, rfl⟩, ?_⟩
  have hwritten : (Program.compile .standard wrappedSource).records.filterMap Record.instruction? =
      (tree.output .standard).items := by
    rw [Program.compile, Report.compiled_records houtcome, hparse, List.filterMap_append, h.unwritten]
    rfl
  intro hlines
  have hlengths := congrArg List.length hlines
  rw [hwritten, h.lists, List.length_append, List.length_map, h.instructions] at hlengths
  exact absurd hlengths (by decide +kernel)

end JackCompiler
