import JackCompiler.Proofs.CommandLine.Directories
import JackCompiler.Proofs.Safety.Carets

/-!
# Failures that cannot be shown

A failure is shown with a caret under the column of its location, and there are columns that are too
far to the right for that. A session breaks off at such a failure, and the units behind it are not
compiled.
-/

namespace JackCompiler

open Scanner FileTree

/-- Where words reach to the end of a source, its failure can be shown exactly if it is not located
too far to the right. -/
theorem Program.compile_shown_iff {o : Options} {source : String} {f : Failure}
    (hsize : byteCount source.toList ≤ maxOffset)
    (h : (Program.compile o source).outcome = .error f) :
    f.render?.isSome ↔ ∃ d, f = .diagnosed d ∧ d.location.column ≤ maxWidth := by
  rw [compile_of_le hsize] at h
  obtain ⟨d, -, -, rfl, -⟩ := compile_located h
  have hshown : d.location.render?.isSome ↔ d.location.column ≤ maxWidth := by
    unfold Location.render?
    split <;> simp_all
  simpa [Failure.render?, Diagnosis.render?] using hshown

/-- Blanks with a character of no token behind them. -/
def behindBlanks (n : Nat) : String :=
  .ofList (List.replicate n ' ' ++ ['?'])

theorem skipGap_replicate_blank (n offset : Nat) (cs : List Char) :
    skipGap .between offset (List.replicate n ' ' ++ cs) = skipGap .between (offset + n) cs := by
  induction n generalizing offset with
  | zero => rfl
  | succ n ih =>
      rw [List.replicate_succ, List.cons_append, skipGap_blank rfl, ih]
      exact congrArg (skipGap .between · cs) (by rw [show Char.utf8Size ' ' = 1 from rfl]; omega)

/-- Blanks are passed, and the character behind them is complained of. -/
theorem faultOf?_behindBlanks (n : Nat) : tokensOf (behindBlanks n) = [] ∧
    faultOf? (behindBlanks n) = some ⟨.lexical (.unknownCharacter '?'), n⟩ := by
  have hnext : (Scanner.ofSource (behindBlanks n)).next =
      (.error ⟨.lexical (.unknownCharacter '?'), n⟩, ⟨n, ['?']⟩) := by
    have hskip : skipGap .between 0 (behindBlanks n).toList = (.ok (), ⟨n, ['?']⟩) := by
      rw [behindBlanks, String.toList_ofList, skipGap_replicate_blank, Nat.zero_add]
      exact skipGap_between (by decide) n
    unfold Scanner.ofSource next
    dsimp only
    rw [hskip]
    rfl
  exact (tokensOf_scans _).unique (.fault hnext)

theorem Report.compiled_error {o : Options} {source : String} {r : Report ClassTree} {f : Failure}
    (h : r.outcome = .error f) : (r.compiled o source).outcome = .error f := by
  rcases r with ⟨e | tree, records⟩ <;> cases h
  rfl

/-- A source fails in the column behind its blanks. -/
theorem compile_behindBlanks (o : Options) (n : Nat) : ∃ l,
    (compile o (behindBlanks n)).outcome =
      .error (.diagnosed ⟨.lexical (.unknownCharacter '?'), l⟩) ∧ l.column = n + 1 := by
  obtain ⟨htokens, hfault⟩ := faultOf?_behindBlanks n
  have hanswer := readClass_answer (behindBlanks n)
  rw [htokens, hfault] at hanswer
  have hread : (readClass (behindBlanks n)).1 =
      .error ⟨.lexical (.unknownCharacter '?'), n⟩ := by
    generalize (readClass (behindBlanks n)).1 = r at hanswer
    cases hanswer with
    | accepted _ he => cases he
    | misfit hts => cases List.append_eq_nil_iff.mp hts.symm |>.2
    | lexical he => rw [Option.some_inj.mp he]
  have hsplit : (behindBlanks n).toList = List.replicate n ' ' ++ ['?'] := String.toList_ofList
  have hbytes : byteCount (List.replicate n ' ') = n := by
    rw [byteCount_replicate, show Char.utf8Size ' ' = 1 from rfl, Nat.mul_one]
  obtain ⟨l, hl, hafter⟩ := Location.of?_byteCount hsplit
  rw [hbytes] at hl
  refine ⟨l, ?_, ?_⟩
  · refine Report.compiled_error ((parse_of_error hread).trans ?_)
    rw [Complaint.failure, Complaint.diagnosis?, hl]
    rfl
  · rw [hafter.column, List.reverse_replicate, List.takeWhile_replicate, if_pos (by decide),
      List.length_replicate]

/-- Behind too many blanks the failure cannot be shown. -/
theorem Program.compile_behindBlanks (o : Options) {n : Nat} (hn : maxWidth ≤ n)
    (hsize : n < maxOffset) : ∃ f,
      (Program.compile o (behindBlanks n)).outcome = .error f ∧ f.render? = none := by
  obtain ⟨l, hfail, hcolumn⟩ := JackCompiler.compile_behindBlanks o n
  have hbytes : byteCount (behindBlanks n).toList ≤ maxOffset := by
    rw [behindBlanks, String.toList_ofList, byteCount_append, byteCount_replicate,
      show Char.utf8Size ' ' = 1 from rfl, Nat.mul_one]
    exact hsize
  rw [← Program.compile_of_le hbytes] at hfail
  refine ⟨_, hfail, ?_⟩
  rw [Failure.render?, Diagnosis.render?, Location.render?, hcolumn, if_neg (by omega),
    Option.map_none]

/-- A directory with a source that fails in the column behind the widest text, before one that
compiles. -/
def farTree : FileTree where
  workingDirectory := []
  directories := [["d"]]
  files := [(["d", "A.jack"], (behindBlanks maxWidth).toUTF8), (["d", "B.jack"], oneSource.toUTF8)]

theorem fromUTF8?_toUTF8 (s : String) : String.fromUTF8? s.toUTF8 = some s := by
  unfold String.fromUTF8?
  rw [String.toUTF8_eq_toByteArray, dif_pos s.isValidUTF8]
  rfl

theorem farTree_workspace : farTree.Workspace "d" ["d"] := by
  refine .of_texts ?_ ?_ ?_ ?_ fun _ => ?_
  · rfl
  · rfl
  · decide
  · have hpaths : ∀ f ∈ farTree.files, ∀ name ∈ f.1.getLast?,
        (joinPath "d" name).utf8ByteSize ≤ maxPathSize := by
      decide
    refine fun f hf name hname => ⟨hpaths f hf name hname, ?_⟩
    rcases List.mem_cons.mp hf with rfl | hf
    · rw [fromUTF8?_toUTF8, Option.isSome_some]
    · obtain rfl := List.mem_singleton.mp hf
      rw [fromUTF8?_toUTF8, Option.isSome_some]
  · simp [isDirectory, farTree]

/-- The session breaks off at the source that fails. What is behind it compiles and has no listing. -/
theorem farTree_brokenOff : farTree.IsUnit ["d"] "B" oneSource ∧
    (Program.compile .standard oneSource).outcome = .ok oneListing ∧
    (farTree.runSession ["compile", "d"]).1 = ⟨101, "", []⟩ ∧
    (farTree.runSession ["compile", "d"]).2.find? ["d", "B.vm"] = none ∧
    ¬CompiledApart .standard "d" ["d"] farTree (farTree.runSession ["compile", "d"]).2
      (farTree.runSession ["compile", "d"]).1.status := by
  have hA : farTree.IsUnit ["d"] "A" (behindBlanks maxWidth) := by
    refine ⟨by decide, ?_⟩
    have hfind : farTree.find? (["d"] ++ [sourceName "A"]) = some (behindBlanks maxWidth).toUTF8 := by
      rfl
    rw [text?, hfind, Option.bind_some, fromUTF8?_toUTF8]
  have hB : farTree.IsUnit ["d"] "B" oneSource := ⟨by decide, rfl⟩
  have hstems : farTree.unitStems "d" ["d"] = [] ++ "A" :: ["B"] := by
    have hnames : (farTree.names ["d"]).filter isSourceName = ["A.jack", "B.jack"] := by
      rfl
    rw [unitStems, hnames, List.mergeSort_of_pairwise (by decide)]
    rfl
  have hdot : farTree.unitOutput? .standard ["d"] "." = none := rfl
  obtain ⟨f, hfail, hnone⟩ :=
    Program.compile_behindBlanks .standard (Nat.le_refl maxWidth) (by decide)
  have hsession := farTree_workspace.compileSession_brokenOff hdot hstems
    (fun _ h => absurd h List.not_mem_nil) hA hfail hnone
  have hrun : farTree.runSession ["compile", "d"] = (⟨101, "", []⟩, farTree) := hsession
  have hunwritten : farTree.find? (["d"] ++ [listingName "B"]) = none := rfl
  rw [hrun]
  refine ⟨hB, oneSource_compiles, rfl, hunwritten, fun h => ?_⟩
  have hwritten := h.compiled "B" oneSource _ hB oneSource_compiles
  rw [hunwritten] at hwritten
  cases hwritten

end JackCompiler
