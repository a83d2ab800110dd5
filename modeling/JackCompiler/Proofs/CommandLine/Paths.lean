import JackCompiler.CommandLine.FileTree
import Mathlib.Data.List.TakeWhile

/-!
# Paths of sources and listings

A source is named by its stem and the extension of sources. Its listing has the same stem and stands
in the same directory, so distinct sources have distinct listings and no listing is a source.

## Implementation notes

The source `..jack` has the stem `.`, and its listing would be `..vm`. Replacing the extension of its
path gives the path of the directory above instead, so the lemma on replaced extensions leaves this
stem out.
-/

namespace JackCompiler

/-- The name of the source with a stem. -/
def sourceName (stem : String) : String :=
  stem ++ "." ++ sourceExtension

/-- The name of the listing with a stem. -/
def listingName (stem : String) : String :=
  stem ++ "." ++ listingExtension

/-! ## Names -/

theorem splitName_eq_some_iff {name stem extension : String} :
    splitName name = (stem, some extension) ↔
      stem ≠ "" ∧ '.' ∉ extension.toList ∧ name = stem ++ "." ++ extension := by
  constructor
  · intro h
    unfold splitName at h
    dsimp only at h
    split at h
    · next c cs hdrop =>
      cases h
      have hname := List.takeWhile_append_dropWhile (p := (· != '.')) (l := name.toList.reverse)
      rw [hdrop] at hname
      refine ⟨by simp, fun hin => ?_, String.toList_injective ?_⟩
      · rw [String.toList_ofList, List.mem_reverse] at hin
        simpa using List.mem_takeWhile_imp hin
      · calc
          name.toList = name.toList.reverse.reverse := (List.reverse_reverse _).symm
          _ = _ := congrArg List.reverse hname.symm
          _ = _ := by simp
    · cases h
  · rintro ⟨hne, hdot, rfl⟩
    have hall : ∀ c ∈ extension.toList.reverse, (c != '.') = true := fun c hc =>
      bne_iff_ne.mpr fun heq => hdot (heq ▸ List.mem_reverse.mp hc)
    have hreverse : (stem ++ "." ++ extension).toList.reverse =
        extension.toList.reverse ++ '.' :: stem.toList.reverse := by
      simp
    obtain ⟨c, cs, hstem⟩ : ∃ c cs, stem.toList.reverse = c :: cs :=
      List.exists_cons_of_ne_nil (by simpa using hne)
    rw [splitName, hreverse, List.dropWhile_append_of_pos hall, List.takeWhile_append_of_pos hall,
      hstem]
    change (String.ofList (c :: cs).reverse,
      some (String.ofList (extension.toList.reverse ++ []).reverse)) = _
    rw [← hstem, List.append_nil, List.reverse_reverse, List.reverse_reverse, String.ofList_toList,
      String.ofList_toList]

theorem splitName_sourceName {stem : String} (h : stem ≠ "") :
    splitName (sourceName stem) = (stem, some sourceExtension) :=
  splitName_eq_some_iff.mpr ⟨h, by decide, rfl⟩

theorem isSourceName_iff {name : String} :
    isSourceName name = true ↔ ∃ stem, stem ≠ "" ∧ name = sourceName stem := by
  rw [isSourceName, beq_iff_eq]
  constructor
  · intro h
    obtain ⟨hne, -, hname⟩ := splitName_eq_some_iff.mp (Prod.ext rfl h)
    exact ⟨_, hne, hname⟩
  · rintro ⟨stem, hne, rfl⟩
    rw [splitName_sourceName hne]

theorem sourceName_ne_listingName (a b : String) : sourceName a ≠ listingName b := by
  intro h
  have hlast := congrArg (fun s : String => s.toList.getLast?) h
  simp [sourceName, listingName, sourceExtension, listingExtension] at hlast

/-! ## Paths -/

/-- The folder of a path with the slash that ends it. -/
def folderOf (directory : String) : String :=
  if directory.toList.getLast? = some '/' then directory else directory ++ "/"

theorem joinPath_eq (directory name : String) :
    joinPath directory name = folderOf directory ++ name := by
  rw [joinPath, folderOf]
  split <;> rfl

theorem splitPath_joinPath (directory : String) {name : String} (h : '/' ∉ name.toList) :
    splitPath (joinPath directory name) = (folderOf directory, name) := by
  obtain ⟨init, hfolder⟩ : ∃ init, (folderOf directory).toList = init ++ ['/'] := by
    rw [folderOf]
    split
    · next hlast =>
      obtain ⟨init, hinit⟩ := List.getLast?_eq_some_iff.mp hlast
      exact ⟨init, hinit⟩
    · exact ⟨directory.toList, String.toList_append⟩
  have hall : ∀ c ∈ name.toList.reverse, (c != '/') = true := fun c hc =>
    bne_iff_ne.mpr fun heq => h (heq ▸ List.mem_reverse.mp hc)
  have hreverse : (joinPath directory name).toList.reverse =
      name.toList.reverse ++ '/' :: init.reverse := by
    rw [joinPath_eq, String.toList_append, hfolder]
    simp
  rw [splitPath, hreverse, List.dropWhile_append_of_pos hall, List.takeWhile_append_of_pos hall]
  refine Prod.ext (String.toList_injective ?_) (String.toList_injective ?_)
  · simp [hfolder]
  · simp

/-- The listing of a source stands in the same directory and has the same stem, but for the stem that
is a single dot. -/
theorem withExtension_sourceName {directory stem : String} (hne : stem ≠ "") (hdot : stem ≠ ".")
    (hslash : '/' ∉ stem.toList) :
    withExtension (joinPath directory (sourceName stem)) listingExtension =
      joinPath directory (listingName stem) := by
  have hname : '/' ∉ (sourceName stem).toList := by
    simp [sourceName, sourceExtension, hslash]
  have hsplit := splitName_sourceName hne
  rw [withExtension, splitPath_joinPath directory hname]
  dsimp only
  split
  · next h =>
    rw [hsplit] at h
    exact absurd (congrArg Prod.fst h) hdot
  · next h =>
    rw [hsplit] at h
    cases h
    rw [joinPath_eq, listingName, String.append_assoc, String.append_assoc, String.append_assoc]

/-! ## Walking a tree -/

/-- A text that can be the name of what is in a directory. -/
structure IsEntryName (name : String) : Prop where
  ne_empty : name ≠ ""
  ne_here : name ≠ "."
  ne_above : name ≠ ".."
  noSlash : '/' ∉ name.toList
  size : name.utf8ByteSize ≤ FileTree.maxNameSize

instance : DecidablePred IsEntryName := fun name =>
  decidable_of_iff (name ≠ "" ∧ name ≠ "." ∧ name ≠ ".." ∧ '/' ∉ name.toList ∧
      name.utf8ByteSize ≤ FileTree.maxNameSize)
    ⟨fun ⟨hempty, hhere, habove, hslash, hsize⟩ => ⟨hempty, hhere, habove, hslash, hsize⟩,
      fun ⟨hempty, hhere, habove, hslash, hsize⟩ => ⟨hempty, hhere, habove, hslash, hsize⟩⟩

theorem listingName_size_le (stem : String) :
    (listingName stem).utf8ByteSize ≤ (sourceName stem).utf8ByteSize := by
  have hsource : "jack".utf8ByteSize = 4 := by decide
  have hlisting : "vm".utf8ByteSize = 2 := by decide
  simp only [listingName, sourceName, listingExtension, sourceExtension, String.utf8ByteSize_append]
  omega

theorem IsEntryName.listingName {stem : String} (h : IsEntryName (sourceName stem)) :
    IsEntryName (listingName stem) := by
  have hslash := h.noSlash
  have hmem : 'v' ∈ (JackCompiler.listingName stem).toList := by
    simp [JackCompiler.listingName, listingExtension]
  refine ⟨?_, ?_, ?_, ?_, ?_⟩
  · intro h
    simp [h] at hmem
  · intro h
    simp [h] at hmem
  · intro h
    simp [h] at hmem
  · simpa [JackCompiler.listingName, sourceName, listingExtension, sourceExtension] using hslash
  · exact (listingName_size_le stem).trans h.size

namespace FileTree

variable {t : FileTree}

theorem walk?_append (t : FileTree) (a b path : List String) :
    t.walk? (a ++ b) path = (t.walk? a path).bind (t.walk? b) := by
  induction a generalizing path with
  | nil => rfl
  | cons segment a ih =>
      simp only [List.cons_append, walk?]
      split
      · rfl
      · split
        · exact ih _
        · split <;> exact ih _

/-- An entry of a directory is one segment away. -/
theorem walk?_entry {dir : List String} {name : String} (hdir : t.isDirectory dir = true)
    (hname : IsEntryName name) : t.walk? [name] dir = some (dir ++ [name]) := by
  simp [walk?, hdir, hname.ne_empty, hname.ne_here, hname.ne_above, Nat.not_lt.mpr hname.size]

theorem segments_joinPath (path : String) {name : String} (h : '/' ∉ name.toList) :
    ∃ walked, segments (joinPath path name) = walked ++ [name] ∧
      (segments path = walked ∨ segments path = walked ++ [""]) := by
  unfold joinPath
  split
  · next hlast =>
    obtain ⟨init, hinit⟩ := List.getLast?_eq_some_iff.mp hlast
    refine ⟨(init.splitOn '/').map String.ofList, ?_, .inr ?_⟩
    · rw [segments, String.toList_append, hinit, List.append_assoc, List.singleton_append,
        List.splitOn_append_cons_self, List.splitOn_eq_singleton h, List.map_append]
      simp
    · rw [segments, hinit, List.splitOn_append_cons_self, List.map_append]
      rfl
  · refine ⟨segments path, ?_, .inl rfl⟩
    have hlist : (path ++ "/" ++ name).toList = path.toList ++ '/' :: name.toList := by simp
    rw [segments, hlist, List.splitOn_append_cons_self, List.splitOn_eq_singleton h, List.map_append,
      segments]
    simp

theorem size_of_resolve? {path : String} {p : List String} (h : t.resolve? path = some p) :
    path.utf8ByteSize ≤ maxPathSize := by
  unfold resolve? at h
  split at h
  · cases h
  · next hpath =>
    simp only [Bool.or_eq_true, decide_eq_true_eq, not_or, Nat.not_lt] at hpath
    exact hpath.2

/-- The path of a name in a directory leads to the entry of that name. -/
theorem resolve?_joinPath {path name : String} {dir : List String} (h : t.resolve? path = some dir)
    (hdir : t.isDirectory dir = true) (hname : IsEntryName name)
    (hsize : (joinPath path name).utf8ByteSize ≤ maxPathSize) :
    t.resolve? (joinPath path name) = some (dir ++ [name]) := by
  unfold resolve? at h
  split at h
  · cases h
  · next hpath =>
    have hne : path.toList ≠ [] := by
      rintro hnil
      simp [String.toList_eq_nil_iff.mp hnil] at hpath
    have hhead : (joinPath path name).toList.head? = path.toList.head? := by
      unfold joinPath
      split <;> simp [List.head?_append, List.head?_eq_some_head hne]
    have hjoined : (joinPath path name).isEmpty = false := by
      rw [← Bool.not_eq_true, String.isEmpty_iff]
      intro hempty
      rw [hempty, List.head?_eq_some_head hne] at hhead
      cases hhead
    rw [resolve?, hjoined, hhead]
    obtain ⟨walked, hsegments, hpaths⟩ := segments_joinPath path hname.noSlash
    have hwalked : t.walk? walked (if path.toList.head? = some '/' then [] else t.workingDirectory) =
        some dir := by
      rcases hpaths with hpaths | hpaths
      · rwa [hpaths] at h
      · rw [hpaths, walk?_append] at h
        obtain ⟨dir', hdir', hlast⟩ := Option.bind_eq_some_iff.mp h
        unfold walk? at hlast
        split at hlast
        · cases hlast
        · cases hlast
          exact hdir'
    rw [hsegments, walk?_append, hwalked]
    simpa [Nat.not_lt.mpr hsize] using walk?_entry hdir hname

end FileTree

end JackCompiler
