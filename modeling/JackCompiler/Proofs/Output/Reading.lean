import JackCompiler.Proofs.Output.Constants
import JackCompiler.Proofs.Output.Words
import JackCompiler.Proofs.Words.Beyond

/-!
# Reading a listing back

A well-formed instruction has one of the forms that lines are written in: its name has a class and a
subroutine, its label is numbered, and its cell is one that code uses. A line reader takes exactly the
lines of well-formed instructions, and a listing reader exactly their listings. All instructions that
a source is compiled to are well-formed, so its text shows which they were.

## Implementation notes

The reader knows the forms only and nothing about sources. What it needs of them is that their names
are words.
-/

namespace JackCompiler

namespace Instruction

/-- The forms of the lines of a listing. -/
inductive WellFormed : Instruction → Prop
  | push {segment : Segment} {index : UInt16} :
      segment.Admits index → WellFormed (.push segment index)
  | pop {segment : Segment} {index : UInt16} :
      segment ≠ .constant → segment.Admits index → WellFormed (.pop segment index)
  | command (c : Command) : WellFormed (.command c)
  | label (stem : LabelStem) (n : Nat) : WellFormed (.label (.numbered stem n))
  | goto (stem : LabelStem) (n : Nat) : WellFormed (.goto (.numbered stem n))
  | ifGoto (stem : LabelStem) (n : Nat) : WellFormed (.ifGoto (.numbered stem n))
  | call {name : String} (args : Nat) : IsQualified name → WellFormed (.call name args)
  | function {name : String} (locals : Nat) : IsQualified name → WellFormed (.function name locals)
  | ret : WellFormed .ret

/-- The instruction that the words of a line write. -/
def ofWords? : List String → Option Instruction
  | ["return"] => some .ret
  | [word] => (Command.ofText? word).map .command
  | ["label", l] => (readLabel? l).map .label
  | ["goto", l] => (readLabel? l).map .goto
  | ["if-goto", l] => (readLabel? l).map .ifGoto
  | ["push", segment, index] => (readCell? segment index).map fun cell => .push cell.1 cell.2
  | ["pop", segment, index] => do
      let cell ← readCell? segment index
      if cell.1 = .constant then none else some (.pop cell.1 cell.2)
  | ["call", name, args] => do return .call (← readName? name) (← readNumber? args)
  | ["function", name, locals] => do return .function (← readName? name) (← readNumber? locals)
  | _ => none

variable {i : Instruction}

theorem WellFormed.legible (h : i.WellFormed) : i.Legible where
  solid := by
    have hcell (s : Segment) : IsSolid s.text := by cases s <;> decide
    have hname {name : String} (hname : IsQualified name) : IsSolid name := by
      obtain ⟨a, b, ha, hb, rfl⟩ := hname
      exact ha.isSolid.qualified hb.isSolid
    cases h with
    | command c => cases c <;> decide
    | ret => decide
    | push _ | pop _ _ =>
        simp only [words, List.forall_mem_cons]
        exact ⟨by decide, hcell _, .number _, by simp⟩
    | label stem n | goto stem n | ifGoto stem n =>
        simp only [words, List.forall_mem_cons]
        exact ⟨by decide, .label stem n, by simp⟩
    | call _ hqualified | function _ hqualified =>
        simp only [words, List.forall_mem_cons]
        exact ⟨by decide, hname hqualified, .number _, by simp⟩
  numbered := by
    intro l hl
    cases h with
    | label stem n | goto stem n | ifGoto stem n =>
        rcases hl with hl | hl <;> cases hl
        exact ⟨stem, n, rfl⟩
    | _ => rcases hl with hl | hl <;> cases hl

theorem labelled_sound {word l : String} {form : Label → Instruction}
    (hform : ∀ stem n, (form (.numbered stem n)).WellFormed)
    (hwords : ∀ label, (form label).words = [word, label.text])
    (h : (readLabel? l).map form = some i) : i.WellFormed ∧ i.words = [word, l] := by
  obtain ⟨label, hlabel, rfl⟩ := Option.map_eq_some_iff.mp h
  obtain ⟨stem, n, rfl, rfl⟩ := readLabel?_eq_some.mp hlabel
  exact ⟨hform stem n, hwords _⟩

theorem named_sound {word name number : String} {form : String → Nat → Instruction}
    (hform : ∀ {name} n, IsQualified name → (form name n).WellFormed)
    (hwords : ∀ name n, (form name n).words = [word, name, toString n])
    (h : (do return form (← readName? name) (← readNumber? number)) = some i) :
    i.WellFormed ∧ i.words = [word, name, number] := by
  obtain ⟨name, hname, hrest⟩ := Option.bind_eq_some_iff.mp h
  obtain ⟨n, hn, heq⟩ := Option.bind_eq_some_iff.mp hrest
  obtain ⟨hqualified, rfl⟩ := readName?_eq_some.mp hname
  obtain rfl := readNumber?_eq_some.mp hn
  cases heq
  exact ⟨hform n hqualified, hwords _ _⟩

/-- Only words of well-formed instructions are read. -/
theorem ofWords?_sound {ws : List String} (h : ofWords? ws = some i) :
    i.WellFormed ∧ i.words = ws := by
  unfold ofWords? at h
  split at h
  · cases h
    exact ⟨.ret, rfl⟩
  · obtain ⟨c, hc, rfl⟩ := Option.map_eq_some_iff.mp h
    exact ⟨.command c, congrArg ([·]) (Command.ofText?_eq_some.mp hc)⟩
  · exact labelled_sound .label (fun _ => rfl) h
  · exact labelled_sound .goto (fun _ => rfl) h
  · exact labelled_sound .ifGoto (fun _ => rfl) h
  · obtain ⟨cell, hcell, rfl⟩ := Option.map_eq_some_iff.mp h
    obtain ⟨hadmits, rfl, rfl⟩ := readCell?_eq_some.mp hcell
    exact ⟨.push hadmits, rfl⟩
  · obtain ⟨cell, hcell, hpop⟩ := Option.bind_eq_some_iff.mp h
    obtain ⟨hsegment, heq⟩ := Option.ite_none_left_eq_some.mp hpop
    obtain ⟨hadmits, rfl, rfl⟩ := readCell?_eq_some.mp hcell
    cases heq
    exact ⟨.pop hsegment hadmits, rfl⟩
  · exact named_sound .call (fun _ _ => rfl) h
  · exact named_sound .function (fun _ _ => rfl) h
  · cases h

/-- The words of a well-formed instruction are read back. -/
theorem WellFormed.ofWords?_words (h : i.WellFormed) : ofWords? i.words = some i := by
  cases h with
  | push hadmits =>
      simp only [words, ofWords?, readCell?_eq_some.mpr ⟨hadmits, rfl, rfl⟩, Option.map_some]
  | pop hsegment hadmits =>
      simp only [words, ofWords?, readCell?_eq_some.mpr ⟨hadmits, rfl, rfl⟩,
        Option.bind_eq_bind, Option.bind_some, if_neg hsegment]
  | command c => cases c <;> rfl
  | label stem n | goto stem n | ifGoto stem n =>
      simp only [words, ofWords?, readLabel?_eq_some.mpr ⟨stem, n, rfl, rfl⟩, Option.map_some]
  | call args hname | function args hname =>
      simp only [words, ofWords?, readName?_eq_some.mpr ⟨hname, rfl⟩,
        readNumber?_eq_some.mpr rfl, Option.bind_eq_bind, Option.bind_some, Option.pure_def]
  | ret => rfl

/-! ## Lines -/

/-- The instruction that a line shows. -/
def ofLine? (line : List Char) : Option Instruction :=
  ofWords? ((line.splitOn ' ').map String.ofList)

/-- A line is read exactly if it is the text of a well-formed instruction. -/
theorem ofLine?_eq_some {line : List Char} :
    ofLine? line = some i ↔ i.WellFormed ∧ i.text.toList = line := by
  constructor
  · intro h
    obtain ⟨hform, hwords⟩ := ofWords?_sound h
    refine ⟨hform, ?_⟩
    calc i.text.toList
      _ = [' '].intercalate (i.words.map String.toList) := by
        rw [text_eq_intercalate, String.toList_intercalate]
        rfl
      _ = [' '].intercalate (line.splitOn ' ') := by simp [hwords]
      _ = line := List.intercalate_splitOn ' '
  · rintro ⟨h, rfl⟩
    calc ofWords? ((i.text.toList.splitOn ' ').map String.ofList)
      _ = ofWords? i.words := by simp [h.legible.splitOn_text]
      _ = some i := h.ofWords?_words

end Instruction

open Instruction

/-! ## Listings -/

/-- The instructions that lines show. Each ends in a line feed, and nothing stands behind the last
one. -/
def readLines? : List (List Char) → Option (List Instruction)
  | [] => none
  | [last] => if last = [] then some [] else none
  | line :: next :: lines => do return (← ofLine? line) :: (← readLines? (next :: lines))

/-- The instructions that a text lists. -/
def readListing? (text : String) : Option (List Instruction) :=
  readLines? (textLines text)

theorem readLines?_eq_some {lines : List (List Char)} {code : List Instruction} :
    readLines? lines = some code ↔
      (∀ i ∈ code, i.WellFormed) ∧ code.map (·.text.toList) ++ [[]] = lines := by
  induction lines generalizing code with
  | nil => simp [readLines?]
  | cons line lines ih =>
      cases lines with
      | nil =>
          rw [readLines?, Option.ite_none_right_eq_some, Option.some_inj]
          constructor
          · rintro ⟨rfl, rfl⟩
            exact ⟨fun _ hi => absurd hi List.not_mem_nil, rfl⟩
          · rintro ⟨-, hlines⟩
            cases code with
            | nil => exact ⟨(List.head_eq_of_cons_eq hlines).symm, rfl⟩
            | cons i is =>
                have htail := List.tail_eq_of_cons_eq hlines
                exact absurd htail (List.append_ne_nil_of_right_ne_nil _ (List.cons_ne_nil _ _))
      | cons next lines =>
          simp only [readLines?, Option.bind_eq_bind, Option.bind_eq_some_iff, Option.pure_def,
            Option.some_inj, ofLine?_eq_some, ih]
          constructor
          · rintro ⟨i, ⟨hi, rfl⟩, is, ⟨his, hlines⟩, rfl⟩
            exact ⟨List.forall_mem_cons.mpr ⟨hi, his⟩, congrArg (i.text.toList :: ·) hlines⟩
          · rintro ⟨hall, hlines⟩
            cases code with
            | nil => cases hlines
            | cons i is =>
                obtain ⟨hi, his⟩ := List.forall_mem_cons.mp hall
                obtain ⟨hline, hrest⟩ := List.cons.inj hlines
                exact ⟨i, ⟨hi, hline⟩, is, ⟨his, hrest⟩, rfl⟩

theorem textLines_injective {a b : String} (h : textLines a = textLines b) : a = b := by
  apply String.toList_inj.mp
  calc a.toList
    _ = ['\n'].intercalate (textLines a) := (List.intercalate_splitOn '\n').symm
    _ = ['\n'].intercalate (textLines b) := by rw [h]
    _ = b.toList := List.intercalate_splitOn '\n'

/-- A text is read exactly if it is the listing of well-formed instructions. -/
theorem readListing?_eq_some {text : String} {code : List Instruction} :
    readListing? text = some code ↔ (∀ i ∈ code, i.WellFormed) ∧ listing code = text := by
  rw [readListing?, readLines?_eq_some, and_congr_right_iff]
  intro hall
  rw [← textLines_listing fun i hi => (hall i hi).legible]
  exact ⟨textLines_injective, congrArg textLines⟩

/-! ## Outputs -/

namespace Instruction

variable {f : Frame} {ms : List Mention} {i : Instruction}

theorem wellFormed_cell (v : Variable) : (push v.kind.segment v.index).WellFormed := by
  cases h : v.kind <;> exact .push trivial

theorem wellFormed_setCell (v : Variable) : (pop v.kind.segment v.index).WellFormed := by
  cases h : v.kind <;> exact .pop (by decide) trivial

theorem isQualified_library : ∀ name ∈ "Memory.alloc" :: libraryNames, IsQualified name := by
  have hread : ∀ name ∈ "Memory.alloc" :: libraryNames, readName? name = some name := by decide
  intro name hname
  exact (readName?_eq_some.mp (hread name hname)).1

theorem OfExpr.wellFormed (h : WordTexts f ms) (hi : OfExpr f ms i) : i.WellFormed := by
  cases hi with
  | constant | number => exact .push trivial
  | cell => exact wellFormed_cell _
  | current => exact .push (.inl rfl)
  | anchor => exact .pop (by decide) (.inr rfl)
  | element => exact .push rfl
  | command c => exact .command c
  | library hname =>
      exact .call _ (isQualified_library _ (List.mem_cons_of_mem _ hname))
  | own hn => exact .call _ ⟨_, _, h.className, h.names hn, rfl⟩
  | object hv hn => exact .call _ ⟨_, _, h.types hv, h.names hn, rfl⟩
  | qualified hr hn => exact .call _ ⟨_, _, h.names hr, h.names hn, rfl⟩

theorem OfStmt.wellFormed (h : WordTexts f ms) (hi : OfStmt f ms i) : i.WellFormed := by
  cases hi with
  | expr hi => exact hi.wellFormed h
  | pushTemp => exact .push rfl
  | popTemp | setElement => exact .pop (by decide) rfl
  | setCell => exact wellFormed_setCell _
  | label stem n => exact .label stem n
  | goto stem n => exact .goto stem n
  | ifGoto stem n => exact .ifGoto stem n
  | ret => exact .ret

end Instruction

theorem SubroutineKind.prologue_wellFormed (k : SubroutineKind) (fields : Nat) :
    Code.All WellFormed (.of (k.prologue fields)) := by
  have halloc : IsQualified "Memory.alloc" := isQualified_library _ List.mem_cons_self
  cases k with
  | constructor =>
      exact .cons (.push trivial) (.cons (.call _ halloc)
        (.cons (.pop (by decide) (.inl rfl)) .nil))
  | method => exact .cons (.push trivial) (.cons (.pop (by decide) (.inl rfl)) .nil)
  | function => exact .nil

/-- All instructions that a source is compiled to are well-formed, whether or not it compiles. -/
theorem output_wellFormed {source : String} {tree : ClassTree}
    (h : (parse source).outcome = .ok tree) (o : Options) : (tree.output o).All WellFormed := by
  apply ClassTree.output_all
  intro s hs
  have htexts := wordTexts_of_parse h hs
  constructor
  · have hname : IsQualified (tree.name.text ++ "." ++ s.name.text) :=
      ⟨_, _, htexts.className, htexts.names List.mem_cons_self, rfl⟩
    exact .cons (.function _ hname) (s.kind.prologue_wellFormed _)
  · have hbody : blockMentions s.body.block ⊆ s.mentions := fun m hm =>
      List.mem_cons_of_mem _ (List.mem_append_right _ hm)
    exact Code.All.mono (emitBlock_ofStmt o _ hbody _) fun i hi => hi.wellFormed htexts

theorem output_legible {source : String} {tree : ClassTree}
    (h : (parse source).outcome = .ok tree) (o : Options) : (tree.output o).All Legible :=
  (output_wellFormed h o).mono fun _ hi => hi.legible

/-- The text of a source that compiles, if words reach to its end, is a listing of well-formed
instructions, and reading it line by line gives back the instructions that the source was compiled
to. So sources that are compiled to different instructions have different texts. -/
theorem Program.compile_readable {o : Options} {source text : String}
    (hsize : byteCount source.toList ≤ maxOffset)
    (h : (Program.compile o source).outcome = .ok text) :
    ∃ tree, (Program.parse source).outcome = .ok tree ∧
      (∀ i ∈ (tree.output o).items, i.WellFormed) ∧
      textLines text = (tree.output o).items.map (·.text.toList) ++ [[]] ∧
      readListing? text = some (tree.output o).items ∧
      ∀ (o' : Options) (source' text' : String) (tree' : ClassTree),
        byteCount source'.toList ≤ maxOffset → (Program.compile o' source').outcome = .ok text' →
        (Program.parse source').outcome = .ok tree' →
        (tree'.output o').items ≠ (tree.output o).items → text' ≠ text := by
  have hread {o : Options} {source : String} {tree : ClassTree}
      (hsize : byteCount source.toList ≤ maxOffset)
      (hparse : (Program.parse source).outcome = .ok tree) :
      readListing? (listing (tree.output o).items) = some (tree.output o).items := by
    rw [parse_of_le hsize] at hparse
    exact readListing?_eq_some.mpr ⟨output_wellFormed hparse o, rfl⟩
  obtain ⟨tree, hparse, -, rfl⟩ := Report.compiled_ok_iff.mp h
  have hplain := hparse
  rw [parse_of_le hsize] at hplain
  refine ⟨tree, hparse, output_wellFormed hplain o, textLines_listing (output_legible hplain o),
    hread hsize hparse, ?_⟩
  intro o' source' text' tree' hsize' h' hparse' hne htext
  obtain ⟨tree'', hparse'', -, rfl⟩ := Report.compiled_ok_iff.mp h'
  obtain rfl : tree' = tree'' := Except.ok.inj (hparse'.symm.trans hparse'')
  have hsame : some (tree'.output o').items = some (tree.output o).items := by
    rw [← hread hsize' hparse', ← hread hsize hparse, htext]
  exact hne (Option.some_inj.mp hsame)

/-- A source whose text has lines of every form. -/
def formsSource : String :=
  "class A\x7bfield Array a;method void f()\x7bwhile(a[0]<2)\x7blet a[1]=a[1]+1;\x7d" ++
    "if(true)\x7bdo a.g();\x7dreturn;\x7d\x7d"

theorem formsSource_readable : byteCount formsSource.toList ≤ maxOffset ∧
    ∃ text, (Program.compile .standard formsSource).outcome = .ok text ∧
    ∃ tree, (Program.parse formsSource).outcome = .ok tree ∧
      (∀ i ∈ (tree.output .standard).items, i.WellFormed) ∧
      textLines text = (tree.output .standard).items.map (·.text.toList) ++ [[]] ∧
      readListing? text = some (tree.output .standard).items ∧
      ∀ (o' : Options) (source' text' : String) (tree' : ClassTree),
        byteCount source'.toList ≤ maxOffset → (Program.compile o' source').outcome = .ok text' →
        (Program.parse source').outcome = .ok tree' →
        (tree'.output o').items ≠ (tree.output .standard).items → text' ≠ text := by
  have hsize : byteCount formsSource.toList ≤ maxOffset := by
    decide +kernel
  have hrun : (Program.compile .standard formsSource).outcome.isOk = true := by
    rw [Program.compile_of_le hsize]
    decide +kernel
  rcases h : (Program.compile .standard formsSource).outcome with e | text
  · rw [h] at hrun
    cases hrun
  · exact ⟨hsize, text, rfl, Program.compile_readable hsize h⟩

/-- Where words do not reach to the end of a source, its text can be read differently: a name with a
line feed in it makes two lines of one instruction. -/
theorem wrappedSource_misread : ∃ tree text, (Program.parse wrappedSource).outcome = .ok tree ∧
    (Program.compile .standard wrappedSource).outcome = .ok text ∧
    readListing? text ≠ some (tree.output .standard).items := by
  obtain ⟨tree, records, hparse, h⟩ := wrappedSource_parse
  have houtcome : (Program.parse wrappedSource).outcome = .ok tree := by rw [hparse]
  refine ⟨tree, _, houtcome, Report.compiled_ok_iff.mpr ⟨tree, houtcome, h.compiles, rfl⟩, ?_⟩
  intro hread
  have hlines := congrArg (Option.map List.length) hread
  rw [h.lists, Option.map_some, h.instructions] at hlines
  exact absurd hlines (by decide +kernel)

end JackCompiler
