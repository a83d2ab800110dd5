import JackCompiler.Proofs.CommandLine.Units
import JackCompiler.Proofs.Words.Programs

/-!
# Compiling a directory

A session on a directory compiles its sources apart from each other: what is left of a unit depends
on its own text and its own listing only, and nothing but listings of units that compile is written.

## Implementation notes

There are two things that a session on a directory is not through with. The listing of `..jack` would
be `..vm`, but the session asks for the directory above to be written, and it ends when that is
refused. And it breaks off at a failure that cannot be shown, which is one too far to the right in
its line or one in a source that words do not reach the end of.
-/

namespace JackCompiler

open FileTree

/-! ## Arguments -/

/-- The stems of the units of a directory, in the order of their names. -/
def FileTree.unitStems (t : FileTree) (path : String) (dir : List String) : List String :=
  ((((t.names dir).filter isSourceName).mergeSort fun a b => a ≤ b).filter fun name =>
    ((t.resolve? (joinPath path name)).bind t.find?).isSome).map fun name => (splitName name).1

theorem filterAuxM_isFile (t : FileTree) (paths found : List String) :
    List.filterAuxM FileTree.disk.isFile paths found t =
      ((paths.filter fun p => ((t.resolve? p).bind t.find?).isSome).reverse ++ found, t) := by
  induction paths generalizing found with
  | nil => rfl
  | cons p paths ih =>
      have hfile : FileTree.disk.isFile p t = (((t.resolve? p).bind t.find?).isSome, t) := rfl
      rw [List.filterAuxM, stateM_bind, hfile, ih, List.filter_cons]
      cases ((t.resolve? p).bind t.find?).isSome <;> simp

theorem filterM_isFile (t : FileTree) (paths : List String) :
    paths.filterM FileTree.disk.isFile t =
      (paths.filter fun p => ((t.resolve? p).bind t.find?).isSome, t) := by
  rw [List.filterM, stateM_bind, filterAuxM_isFile, List.append_nil]
  simp
  rfl

theorem sourceName_splitName {name : String} (h : isSourceName name = true) :
    sourceName (splitName name).1 = name := by
  obtain ⟨stem, hne, rfl⟩ := isSourceName_iff.mp h
  rw [splitName_sourceName hne]

/-- The sources of a directory are its units. -/
theorem sourcePaths_directory {t : FileTree} {path : String} {dir : List String}
    (hresolves : t.resolve? path = some dir) (hdir : t.isDirectory dir = true) :
    sourcePaths FileTree.disk path t =
      (some ((t.unitStems path dir).map fun stem => joinPath path (sourceName stem)), t) := by
  have hdirectory : FileTree.disk.isDirectory path t = (true, t) := by
    change ((t.resolve? path).any t.isDirectory, t) = _
    rw [hresolves, Option.any_some, hdir]
  have hnames : FileTree.disk.names path t = (some (t.names dir), t) := by
    change ((t.resolve? path).map t.names, t) = _
    rw [hresolves, Option.map_some]
  rw [sourcePaths, stateM_bind, hdirectory, if_pos rfl, stateM_bind, hnames]
  dsimp only
  rw [stateM_bind, filterM_isFile, List.filter_map, FileTree.unitStems, List.map_map]
  change ((some (List.map _ _), t) : Option (List String) × FileTree) = _
  refine congrArg (fun paths => (some paths, t)) (List.map_congr_left fun name hname => ?_)
  have hsource : isSourceName name = true :=
    (List.mem_filter.mp (List.mem_mergeSort.mp (List.mem_filter.mp hname).1)).2
  rw [Function.comp_apply, sourceName_splitName hsource]

/-- A directory that can be compiled: a path leads to it, what is in it has names, its sources can be
read, and their listings can be written. -/
structure FileTree.Workspace (t : FileTree) (path : String) (dir : List String) : Prop where
  resolves : t.resolve? path = some dir
  isDirectory : t.isDirectory dir = true
  named : ∀ name ∈ t.names dir, IsEntryName name
  readable : ∀ stem bytes, stem ≠ "" → t.find? (dir ++ [sourceName stem]) = some bytes →
    (joinPath path (sourceName stem)).utf8ByteSize ≤ maxPathSize ∧ (String.fromUTF8? bytes).isSome
  writable : ∀ stem bytes, stem ≠ "" → t.find? (dir ++ [sourceName stem]) = some bytes →
    t.isDirectory (dir ++ [listingName stem]) = false

/-- A unit of a directory: the stem of a source with its text. -/
def FileTree.IsUnit (t : FileTree) (dir : List String) (stem source : String) : Prop :=
  stem ≠ "" ∧ t.text? (dir ++ [sourceName stem]) = some source

/-- Nothing in a directory keeps a session from getting through with it: no source `..jack` compiles,
and the failure of every source that fails can be shown. -/
structure FileTree.Clear (o : Options) (dir : List String) (t : FileTree) : Prop where
  dotted : t.unitOutput? o dir "." = none
  shown : ∀ stem source f, t.IsUnit dir stem source →
    (Program.compile o source).outcome = .error f → f.render?.isSome

theorem FileTree.mem_files {t : FileTree} {path : List String} {bytes : ByteArray}
    (h : t.find? path = some bytes) : (path, bytes) ∈ t.files := by
  obtain ⟨before, after, hfiles, -⟩ := List.lookup_eq_some_iff.mp h
  simp [hfiles]

theorem FileTree.mem_names {t : FileTree} {dir : List String} {name : String} {bytes : ByteArray}
    (h : t.find? (dir ++ [name]) = some bytes) : name ∈ t.names dir := by
  refine List.mem_filterMap.mpr ⟨dir ++ [name], ?_, by simp⟩
  exact List.mem_append_right _ (List.mem_map_of_mem (mem_files h))

/-- A failure that there is can be shown. -/
def Report.shown {α : Type} (r : Report α) : Bool :=
  match r.outcome with
  | .ok _ => true
  | .error f => f.render?.isSome

/-- A tree whose files are short texts does not hinder a session if what fails of them can be
shown. -/
theorem FileTree.Clear.of_texts {o : Options} {t : FileTree} {dir : List String}
    (hdotted : t.text? (dir ++ [sourceName "."]) = none)
    (htexts : ∀ f ∈ t.files, ∀ source ∈ String.fromUTF8? f.2,
      byteCount source.toList ≤ maxOffset ∧ (compile o source).shown = true) : t.Clear o dir where
  dotted := by rw [unitOutput?, hdotted, Option.bind_none]
  shown := by
    rintro stem source f ⟨-, htext⟩ hfail
    obtain ⟨bytes, hbytes, hsource⟩ := Option.bind_eq_some_iff.mp htext
    obtain ⟨hsize, hshown⟩ := htexts _ (mem_files hbytes) source hsource
    rw [Program.compile_of_le hsize] at hfail
    rwa [Report.shown, hfail] at hshown

namespace FileTree.Workspace

variable {t : FileTree} {path : String} {dir : List String}

/-- A directory without directories in it can be compiled if all files are texts and their paths are
short enough. -/
theorem of_texts (hresolves : t.resolve? path = some dir) (hdir : t.isDirectory dir = true)
    (hnamed : ∀ name ∈ t.names dir, IsEntryName name)
    (htexts : ∀ f ∈ t.files, ∀ name ∈ f.1.getLast?,
      (joinPath path name).utf8ByteSize ≤ maxPathSize ∧ (String.fromUTF8? f.2).isSome)
    (hflat : ∀ name, t.isDirectory (dir ++ [name]) = false) : t.Workspace path dir where
  resolves := hresolves
  isDirectory := hdir
  named := hnamed
  readable _ _ _ hbytes := htexts _ (mem_files hbytes) _ (by simp)
  writable _ _ _ _ := hflat _

theorem exists_text (h : t.Workspace path dir) {stem : String} (hne : stem ≠ "")
    {bytes : ByteArray} (hbytes : t.find? (dir ++ [sourceName stem]) = some bytes) :
    t.resolve? (joinPath path (sourceName stem)) = some (dir ++ [sourceName stem]) ∧
      (t.text? (dir ++ [sourceName stem])).isSome := by
  obtain ⟨hsize, htext⟩ := h.readable stem bytes hne hbytes
  refine ⟨resolve?_joinPath h.resolves h.isDirectory (h.named _ (mem_names hbytes)) hsize, ?_⟩
  rwa [text?, hbytes, Option.bind_some]

/-- The units of a directory are its sources. -/
theorem mem_unitStems_iff (h : t.Workspace path dir) {stem : String} :
    stem ∈ t.unitStems path dir ↔ stem ≠ "" ∧ (t.text? (dir ++ [sourceName stem])).isSome := by
  simp only [unitStems, List.mem_map, List.mem_filter, List.mem_mergeSort]
  constructor
  · rintro ⟨name, ⟨⟨hin, hsource⟩, hfile⟩, rfl⟩
    obtain ⟨stem, hne, rfl⟩ := isSourceName_iff.mp hsource
    rw [splitName_sourceName hne]
    obtain ⟨bytes, hbytes⟩ := Option.isSome_iff_exists.mp hfile
    obtain ⟨p, hp, hfind⟩ := Option.bind_eq_some_iff.mp hbytes
    have hentry := resolve?_joinPath h.resolves h.isDirectory (h.named _ hin) (size_of_resolve? hp)
    obtain rfl := Option.some_inj.mp (hp.symm.trans hentry)
    exact ⟨hne, (h.exists_text hne hfind).2⟩
  · rintro ⟨hne, htext⟩
    obtain ⟨text, htext⟩ := Option.isSome_iff_exists.mp htext
    obtain ⟨bytes, hbytes, -⟩ := Option.bind_eq_some_iff.mp htext
    refine ⟨sourceName stem, ⟨⟨mem_names hbytes, isSourceName_iff.mpr ⟨stem, hne, rfl⟩⟩, ?_⟩, ?_⟩
    · rw [(h.exists_text hne hbytes).1, Option.bind_some, hbytes]
      rfl
    · rw [splitName_sourceName hne]

/-- The path of the listing of a unit leads to the entry of its name, but for the stem that is a
single dot. -/
theorem resolve?_listing (h : t.Workspace path dir) {stem : String} (hne : stem ≠ "")
    (hdot : stem ≠ ".") {bytes : ByteArray}
    (hbytes : t.find? (dir ++ [sourceName stem]) = some bytes) :
    t.resolve? (withExtension (joinPath path (sourceName stem)) listingExtension) =
      some (dir ++ [listingName stem]) := by
  have hname := h.named _ (mem_names hbytes)
  have hslash : '/' ∉ stem.toList := by
    have hnot := hname.noSlash
    simp [sourceName, sourceExtension] at hnot
    exact hnot
  have hsize := (h.readable stem bytes hne hbytes).1
  rw [withExtension_sourceName hne hdot hslash]
  refine resolve?_joinPath h.resolves h.isDirectory hname.listingName (Nat.le_trans ?_ hsize)
  rw [joinPath_eq, joinPath_eq, String.utf8ByteSize_append, String.utf8ByteSize_append]
  exact Nat.add_le_add_left (listingName_size_le stem) _

theorem unitReady {o : Options} (h : t.Workspace path dir) (hdot : t.unitOutput? o dir "." = none)
    {stem : String} (hstem : stem ∈ t.unitStems path dir)
    (hshown : ∀ source f, t.IsUnit dir stem source →
      (Program.compile o source).outcome = .error f → f.render?.isSome) :
    UnitReady o path dir t stem := by
  obtain ⟨hne, htext⟩ := h.mem_unitStems_iff.mp hstem
  obtain ⟨text, htext'⟩ := Option.isSome_iff_exists.mp htext
  obtain ⟨bytes, hbytes, -⟩ := Option.bind_eq_some_iff.mp htext'
  refine ⟨(h.exists_text hne hbytes).1, htext, fun houtput => ?_,
    fun source f hsource => hshown source f ⟨hne, hsource⟩⟩
  have hstem : stem ≠ "." := by
    rintro rfl
    rw [hdot] at houtput
    cases houtput
  exact ⟨h.resolve?_listing hne hstem hbytes, h.writable stem bytes hne hbytes⟩

/-- A session breaks off at the first unit whose failure cannot be shown. The units before it are
compiled, and the listings of those behind it are left as they are. -/
theorem compileSession_brokenOff {o : Options} (h : t.Workspace path dir)
    (hdot : t.unitOutput? o dir "." = none) {before after : List String} {stem source : String}
    {f : Failure} (hstems : t.unitStems path dir = before ++ stem :: after)
    (hshown : ∀ other ∈ before, ∀ source f, t.IsUnit dir other source →
      (Program.compile o source).outcome = .error f → f.render?.isSome)
    (hunit : t.IsUnit dir stem source) (hfail : (Program.compile o source).outcome = .error f)
    (hnone : f.render? = none) :
    compileSession FileTree.disk path o t =
      (⟨101, "", before.filterMap (t.unitError? o path dir)⟩,
        before.foldl (compileUnit o dir) t) := by
  have hready : ∀ other ∈ before, UnitReady o path dir t other := fun other hother =>
    h.unitReady hdot (by simp [hstems, hother]) (hshown other hother)
  obtain ⟨bytes, hbytes, -⟩ := Option.bind_eq_some_iff.mp hunit.2
  have hrun := compileSources_brokenOff hready after (h.exists_text hunit.1 hbytes).1 hunit.2 hfail
    hnone
  have hpaths := sourcePaths_directory h.resolves h.isDirectory
  rw [hstems] at hpaths
  cases before with
  | nil => exact compileSession_of_sources hpaths hrun
  | cons first before => exact compileSession_of_sources hpaths hrun

end FileTree.Workspace

/-! ## Units apart -/

/-- What compiling the units of a directory apart from each other leaves of a tree: the listing of a
unit is what the unit compiles to, or what it was if the unit fails, and no other file is changed, no
source in particular. Distinct units have listings at distinct places. The status is one if a unit
failed or there is none, and zero otherwise. -/
structure FileTree.CompiledApart (o : Options) (path : String) (dir : List String)
    (t t' : FileTree) (status : Nat) : Prop where
  compiled : ∀ stem source text, t.IsUnit dir stem source →
    (Program.compile o source).outcome = .ok text → t'.find? (dir ++ [listingName stem]) = some text.toUTF8
  failed : ∀ stem source f, t.IsUnit dir stem source → (Program.compile o source).outcome = .error f →
    t'.find? (dir ++ [listingName stem]) = t.find? (dir ++ [listingName stem])
  unchanged : ∀ q, (∀ stem source text, t.IsUnit dir stem source →
    (Program.compile o source).outcome = .ok text → q ≠ dir ++ [listingName stem]) →
      t'.find? q = t.find? q
  sources : ∀ stem, t'.find? (dir ++ [sourceName stem]) = t.find? (dir ++ [sourceName stem])
  directories : t'.directories = t.directories
  workingDirectory : t'.workingDirectory = t.workingDirectory
  apart : ∀ a b source source' text text', t.IsUnit dir a source → t.IsUnit dir b source' →
    (Program.compile o source).outcome = .ok text → (Program.compile o source').outcome = .ok text' →
    t.resolve? (withExtension (joinPath path (sourceName a)) listingExtension) =
      t.resolve? (withExtension (joinPath path (sourceName b)) listingExtension) → a = b
  status_range : status = 0 ∨ status = 1
  status_eq_one : status = 1 ↔
    (∃ stem source f, t.IsUnit dir stem source ∧ (Program.compile o source).outcome = .error f) ∨
      ∀ stem source, ¬t.IsUnit dir stem source

namespace FileTree.IsUnit

variable {o : Options} {t : FileTree} {dir : List String} {stem source : String}

theorem unitOutput? (h : t.IsUnit dir stem source) :
    t.unitOutput? o dir stem = (Program.compile o source).outcome.toOption := by
  rw [FileTree.unitOutput?, h.2, Option.bind_some]

end FileTree.IsUnit

namespace FileTree.Workspace

variable {o : Options} {t : FileTree} {path : String} {dir : List String}

end FileTree.Workspace

/-- What a session makes of a tree. -/
def FileTree.runSession (t : FileTree) (args : List String) : SessionResult × FileTree :=
  session FileTree.disk args t

/-- A class with one function. -/
def oneSource : String :=
  "class One { function int one() { return 1; } }"

/-- The listing of that class. -/
def oneListing : String :=
  "function One.one 0\npush constant 1\nreturn\n"

theorem oneSource_compiles : (Program.compile .standard oneSource).outcome = .ok oneListing := by
  rw [Program.compile_of_le (by decide)]
  decide +kernel

end JackCompiler
