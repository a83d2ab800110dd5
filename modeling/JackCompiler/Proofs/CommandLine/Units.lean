import JackCompiler.Proofs.CommandLine.Paths

/-!
# Units on a tree of files

A unit is a source with its listing in a directory. Compiling a unit writes the listing if the source
compiles and nothing otherwise, and compiling sources in a loop compiles their units one by one.

## Implementation notes

The loop reads and writes one tree. That a unit finds the text that it had at the start is a fact
about names: every file that the loop writes is a listing, and no listing is a source.
-/

namespace JackCompiler

open FileTree

namespace FileTree

variable {t : FileTree}

/-! ## Reading and writing a tree -/

/-- The text of a file, if there is one and it is UTF-8. -/
def text? (t : FileTree) (path : List String) : Option String :=
  (t.find? path).bind String.fromUTF8?

/-- A tree with a file written to it, in place of one that was there. -/
def put (t : FileTree) (path : List String) (bytes : ByteArray) : FileTree :=
  { t with files := (path, bytes) :: t.files.filter fun f => f.1 != path }

theorem lookup_filter_ne {path q : List String} (h : q ≠ path)
    (files : List (List String × ByteArray)) :
    (files.filter fun f => f.1 != path).lookup q = files.lookup q := by
  induction files with
  | nil => rfl
  | cons f files ih =>
      by_cases hf : f.1 = path
      · have hq : (q == f.1) = false := beq_false_of_ne (hf ▸ h)
        rw [List.filter_cons_of_neg (by simp [hf]), ih, List.lookup_cons, hq]
      · rw [List.filter_cons_of_pos (by simp [hf]), List.lookup_cons, List.lookup_cons, ih]

theorem find?_put (t : FileTree) (path q : List String) (bytes : ByteArray) :
    (t.put path bytes).find? q = if q = path then some bytes else t.find? q := by
  rw [find?, put, List.lookup_cons]
  split
  · next h => rw [if_pos (beq_iff_eq.mp h)]
  · next h =>
    have hne : q ≠ path := fun heq => by simp [heq] at h
    rw [if_neg hne, lookup_filter_ne hne]
    rfl

theorem walk?_put (t : FileTree) (path : List String) (bytes : ByteArray)
    (segments start : List String) :
    (t.put path bytes).walk? segments start = t.walk? segments start := by
  induction segments generalizing start with
  | nil => rfl
  | cons segment segments ih =>
      simp only [walk?, ih]
      rfl

theorem resolve?_put (t : FileTree) (path : List String) (bytes : ByteArray) (p : String) :
    (t.put path bytes).resolve? p = t.resolve? p := by
  simp only [resolve?, walk?_put]
  rfl

/-! ## One unit -/

/-- What the source with a stem in a directory compiles to, if it is there and compiles. -/
def unitOutput? (o : Options) (dir : List String) (t : FileTree) (stem : String) : Option String :=
  (t.text? (dir ++ [sourceName stem])).bind fun source =>
    (Program.compile o source).outcome.toOption

/-- What is said about the source with a stem in a directory, if it is there and fails and its
failure can be shown. -/
def unitError? (o : Options) (path : String) (dir : List String) (t : FileTree) (stem : String) :
    Option String :=
  (t.text? (dir ++ [sourceName stem])).bind fun source =>
    match (Program.compile o source).outcome with
    | .ok _ => none
    | .error f => f.render?.map fun message => joinPath path (sourceName stem) ++ ": " ++ message

/-- A tree after the source with a stem in a directory was compiled. -/
def compileUnit (o : Options) (dir : List String) (t : FileTree) (stem : String) : FileTree :=
  match t.unitOutput? o dir stem with
  | some text => t.put (dir ++ [listingName stem]) text.toUTF8
  | none => t

section

variable (o : Options) (dir : List String)

theorem find?_compileUnit (t : FileTree) (stem : String) (q : List String) :
    (t.compileUnit o dir stem).find? q =
      if q = dir ++ [listingName stem] then
        ((t.unitOutput? o dir stem).map String.toUTF8).or (t.find? q)
      else t.find? q := by
  unfold compileUnit
  cases t.unitOutput? o dir stem with
  | none => simp
  | some text => rw [find?_put]; rfl

/-- Compiling a unit does not change the text of any source. -/
theorem text?_compileUnit (t : FileTree) (stem other : String) :
    (t.compileUnit o dir stem).text? (dir ++ [sourceName other]) =
      t.text? (dir ++ [sourceName other]) := by
  have hne : dir ++ [sourceName other] ≠ dir ++ [listingName stem] := by
    simpa using sourceName_ne_listingName other stem
  rw [text?, find?_compileUnit, if_neg hne, text?]

theorem resolve?_compileUnit (t : FileTree) (stem p : String) :
    (t.compileUnit o dir stem).resolve? p = t.resolve? p := by
  unfold compileUnit
  split
  · exact resolve?_put ..
  · rfl

theorem directories_compileUnit (t : FileTree) (stem : String) :
    (t.compileUnit o dir stem).directories = t.directories ∧
      (t.compileUnit o dir stem).workingDirectory = t.workingDirectory := by
  unfold compileUnit
  split <;> exact ⟨rfl, rfl⟩

/-- What a unit compiles to does not depend on the units compiled before it. -/
theorem unitOutput?_compileUnit (t : FileTree) (stem : String) :
    unitOutput? o dir (t.compileUnit o dir stem) = t.unitOutput? o dir := by
  funext other
  rw [unitOutput?, text?_compileUnit, unitOutput?]

theorem unitError?_compileUnit (path : String) (t : FileTree) (stem : String) :
    unitError? o path dir (t.compileUnit o dir stem) = t.unitError? o path dir := by
  funext other
  rw [unitError?, text?_compileUnit, unitError?]

/-! ## All units -/

theorem text?_foldl (stems : List String) (t : FileTree) (other : String) :
    (stems.foldl (compileUnit o dir) t).text? (dir ++ [sourceName other]) =
      t.text? (dir ++ [sourceName other]) := by
  induction stems generalizing t with
  | nil => rfl
  | cons stem stems ih => rw [List.foldl_cons, ih, text?_compileUnit]

theorem resolve?_foldl (stems : List String) (t : FileTree) (p : String) :
    (stems.foldl (compileUnit o dir) t).resolve? p = t.resolve? p := by
  induction stems generalizing t with
  | nil => rfl
  | cons stem stems ih => rw [List.foldl_cons, ih, resolve?_compileUnit]

end

/-! ## The loop over sources -/

/-- A unit that the loop finds its way with: its path leads to its source, which has a text, and the
path of its listing leads to a place that is no directory, unless it fails, and then its failure can
be shown. -/
structure UnitReady (o : Options) (path : String) (dir : List String) (t : FileTree)
    (stem : String) : Prop where
  resolves : t.resolve? (joinPath path (sourceName stem)) = some (dir ++ [sourceName stem])
  readable : (t.text? (dir ++ [sourceName stem])).isSome
  writable : (t.unitOutput? o dir stem).isSome →
    t.resolve? (withExtension (joinPath path (sourceName stem)) listingExtension) =
      some (dir ++ [listingName stem]) ∧ t.isDirectory (dir ++ [listingName stem]) = false
  shown : ∀ source f, t.text? (dir ++ [sourceName stem]) = some source →
    (Program.compile o source).outcome = .error f → f.render?.isSome

theorem UnitReady.compileUnit {o : Options} {path : String} {dir : List String} {stem : String}
    (h : UnitReady o path dir t stem) (other : String) :
    UnitReady o path dir (t.compileUnit o dir other) stem where
  resolves := by rw [resolve?_compileUnit, h.resolves]
  readable := by rw [text?_compileUnit]; exact h.readable
  writable := by
    rw [unitOutput?_compileUnit, resolve?_compileUnit, isDirectory,
      (directories_compileUnit o dir t other).1]
    exact h.writable
  shown := by rw [text?_compileUnit]; exact h.shown

end FileTree

theorem stateM_bind {σ α β : Type} (x : StateM σ α) (f : α → StateM σ β) (s : σ) :
    (x >>= f) s = f (x s).1 (x s).2 := rfl

theorem disk_writeText (path text : String) (t : FileTree) :
    FileTree.disk.writeText path text t =
      match (t.resolve? path).bind fun p => t.write? p text.toUTF8 with
      | some t' => (true, t')
      | none => (false, t) := by
  change (match (t.resolve? path).bind fun p => t.write? p text.toUTF8 with
    | some t' => (do set t'; return true : StateM FileTree Bool)
    | none => return false) t = _
  rcases (t.resolve? path).bind fun p => t.write? p text.toUTF8 with _ | t' <;> rfl

/-- One source of the loop over a tree. -/
theorem compileSources_cons (o : Options) (path : String) (paths errors : List String)
    (t : FileTree) : compileSources FileTree.disk o (path :: paths) errors t =
      match (t.resolve? path).bind t.text? with
      | none => ((errors.reverse, .stopped), t)
      | some source =>
          match (Program.compile o source).outcome with
          | .ok text =>
              match (t.resolve? (withExtension path listingExtension)).bind fun p =>
                  t.write? p text.toUTF8 with
              | some t' => compileSources FileTree.disk o paths errors t'
              | none => ((errors.reverse, .stopped), t)
          | .error f =>
              match f.render? with
              | some message =>
                  compileSources FileTree.disk o paths ((path ++ ": " ++ message) :: errors) t
              | none => ((errors.reverse, .brokenOff), t) := by
  have hread : FileTree.disk.readText path t = ((t.resolve? path).bind t.text?, t) := rfl
  rw [compileSources, stateM_bind, hread]
  rcases (t.resolve? path).bind t.text? with _ | source
  · rfl
  · dsimp only
    rcases (Program.compile o source).outcome with f | text
    · dsimp only
      rcases f.render? with _ | message <;> rfl
    · dsimp only
      rw [stateM_bind, disk_writeText]
      rcases (t.resolve? (withExtension path listingExtension)).bind fun p =>
        t.write? p text.toUTF8 with _ | t' <;> rfl

/-- The loop compiles units one by one and goes on with what follows them. -/
theorem compileSources_append {o : Options} {path : String} {dir stems : List String} {t : FileTree}
    (h : ∀ stem ∈ stems, UnitReady o path dir t stem) (paths errors : List String) :
    compileSources FileTree.disk o
        ((stems.map fun stem => joinPath path (sourceName stem)) ++ paths) errors t =
      compileSources FileTree.disk o paths
        ((stems.filterMap (t.unitError? o path dir)).reverse ++ errors)
        (stems.foldl (compileUnit o dir) t) := by
  induction stems generalizing errors t with
  | nil => rfl
  | cons stem stems ih =>
      obtain ⟨hstem, hstems⟩ := List.forall_mem_cons.mp h
      obtain ⟨source, hsource⟩ := Option.isSome_iff_exists.mp hstem.readable
      have houtput : t.unitOutput? o dir stem = (Program.compile o source).outcome.toOption := by
        rw [unitOutput?, hsource, Option.bind_some]
      rw [List.map_cons, List.cons_append, compileSources_cons, hstem.resolves, Option.bind_some,
        hsource, List.foldl_cons]
      dsimp only
      rcases houtcome : (Program.compile o source).outcome with f | text <;> rw [houtcome] at houtput
      · obtain ⟨message, hmessage⟩ :=
          Option.isSome_iff_exists.mp (hstem.shown source f hsource houtcome)
        have herror : t.unitError? o path dir stem =
            some (joinPath path (sourceName stem) ++ ": " ++ message) := by
          rw [unitError?, hsource, Option.bind_some, houtcome]
          dsimp only
          rw [hmessage, Option.map_some]
        have hsame : t.compileUnit o dir stem = t := by
          rw [compileUnit, houtput]
          rfl
        dsimp only
        rw [hmessage]
        dsimp only
        rw [ih hstems, hsame, List.filterMap_cons_some herror, List.reverse_cons, List.append_assoc]
        rfl
      · have herror : t.unitError? o path dir stem = none := by
          rw [unitError?, hsource, Option.bind_some, houtcome]
        have hput : t.compileUnit o dir stem = t.put (dir ++ [listingName stem]) text.toUTF8 := by
          rw [compileUnit, houtput]
          rfl
        obtain ⟨htarget, hfree⟩ := hstem.writable (by rw [houtput]; rfl)
        have hwrite : t.write? (dir ++ [listingName stem]) text.toUTF8 =
            some (t.compileUnit o dir stem) := by
          rw [write?, if_neg (by simp [hfree]), hput]
          rfl
        dsimp only
        rw [htarget, Option.bind_some, hwrite]
        dsimp only
        rw [ih fun other hother => (hstems other hother).compileUnit stem, unitError?_compileUnit,
          List.filterMap_cons_none herror]

/-- The loop breaks off at the first unit whose failure cannot be shown. The units before it are
compiled, and those behind it are left as they are. -/
theorem compileSources_brokenOff {o : Options} {path stem source : String} {f : Failure}
    {dir before : List String} {t : FileTree}
    (h : ∀ stem ∈ before, UnitReady o path dir t stem) (after : List String)
    (hresolves : t.resolve? (joinPath path (sourceName stem)) = some (dir ++ [sourceName stem]))
    (hsource : t.text? (dir ++ [sourceName stem]) = some source)
    (hfail : (Program.compile o source).outcome = .error f) (hshown : f.render? = none) :
    compileSources FileTree.disk o
        ((before ++ stem :: after).map fun stem => joinPath path (sourceName stem)) [] t =
      ((before.filterMap (t.unitError? o path dir), .brokenOff),
        before.foldl (compileUnit o dir) t) := by
  have hsame :
      (before.foldl (compileUnit o dir) t).text? (dir ++ [sourceName stem]) = some source := by
    rw [text?_foldl, hsource]
  rw [List.map_append, compileSources_append h, List.map_cons, compileSources_cons, resolve?_foldl,
    hresolves, Option.bind_some, hsame, List.append_nil]
  dsimp only
  rw [hfail]
  dsimp only
  rw [hshown, List.reverse_reverse]

/-- A session on sources ends as its loop over them does. -/
theorem compileSession_of_sources {o : Options} {path p : String} {paths errors : List String}
    {ending : Ending} {t t' : FileTree}
    (hpaths : sourcePaths FileTree.disk path t = (some (p :: paths), t))
    (hrun : compileSources FileTree.disk o (p :: paths) [] t = ((errors, ending), t')) :
    compileSession FileTree.disk path o t = (⟨ending.status !errors.isEmpty, "", errors⟩, t') := by
  rw [compileSession, stateM_bind, hpaths]
  change (compileSources FileTree.disk o (p :: paths) [] >>= fun r =>
    pure (⟨r.2.status !r.1.isEmpty, "", r.1⟩ : SessionResult)) t = _
  rw [stateM_bind, hrun]
  rfl

end JackCompiler
