import JackCompiler.Proofs.Safety.Totality

/-!
# Lines, columns and carets agree

A location is made of three readings of a source: its line counts line feeds, its column counts
characters since the last of them, and its text is the line around the offset. They agree, so that
the caret of a rendering stands under the character at the offset, exactly where the line feed before
that line is not directly followed by a carriage return.

## Implementation notes

The line around an offset passes over a carriage return directly behind a line feed, and the column
counts it. So a line that begins with a carriage return is shown without it, under a caret that
stands one place too far to the right.

A caret is padded to any column here. Nothing is said of an output that can pad up to column 65535
only.
-/

namespace JackCompiler

/-! ## Carets -/

/-- Three lines, the second of which shows a text behind a label, and the third of which ends with a
caret: as many characters stand before the caret as the label and some other characters take. -/
def CaretUnder (rendered : String) (shown inside : List Char) : Prop :=
  ∃ top label gap : List Char,
    rendered.toList = top ++ '\n' :: (label ++ shown ++ '\n' :: (gap ++ ['^'])) ∧
    '\n' ∉ top ++ label ++ shown ++ gap ∧ '^' ∉ gap ∧ gap.length = (label ++ inside).length

theorem not_mem_spaces {c : Char} (hc : c ≠ ' ') (n : Nat) : c ∉ (spaces n).toList := by
  rw [spaces, String.toList_ofList]
  exact fun h => hc (List.eq_of_mem_replicate h)

theorem not_mem_number {c : Char} (hc : c.isDigit = false) (n : Nat) : c ∉ (toString n).toList := by
  rw [Nat.toString_eq_repr, Nat.toList_repr]
  intro h
  have hdigit := Nat.isDigit_of_mem_toDigits (by decide) (by decide) h
  rw [hc] at hdigit
  cases hdigit

theorem Location.render_caretUnder {l : Location} {shown inside : List Char}
    (htext : l.text = String.ofList shown) (hfree : '\n' ∉ shown)
    (hcolumn : l.column = inside.length + 1) : CaretUnder l.render shown inside := by
  have hnumber := not_mem_number (c := '\n') (by decide) l.line
  have hspaces := not_mem_spaces (c := '\n') (by decide)
  unfold render
  generalize toString l.line = number at hnumber ⊢
  refine ⟨(spaces number.length ++ " |").toList, (number ++ " | ").toList,
    (spaces number.length ++ " | " ++ spaces (l.column - 1)).toList, ?_, ?_, ?_, ?_⟩
  · simp [htext]
  · simp [hnumber, hspaces, hfree]
  · simp [not_mem_spaces (c := '^') (by decide)]
  · simp [spaces, hcolumn, String.length_toList]

/-! ## Agreement -/

/-- The parts of a location agree about the line `inside ++ outside` of a source and the place between
its two parts. That line is a longest stretch without line feeds, it is what is found around the
place, it is the fragment of its span, and it is shown, but for carriage returns at its end, above a
caret at the place. -/
structure Location.AgreesOn (l : Location) (source : String)
    (lead inside outside rest : List Char) : Prop where
  split : source.toList = lead ++ (inside ++ outside ++ rest)
  free : '\n' ∉ inside ++ outside
  starts : ∀ c ∈ lead.getLast?, c = '\n'
  ends : ∀ c ∈ rest.head?, c = '\n'
  around : lineAround source.toList (byteCount (lead ++ inside)) =
    (byteCount lead, inside ++ outside)
  fragment : (Span.mk (byteCount lead) (byteCount (inside ++ outside))).fragment? source =
    some (String.ofList (inside ++ outside))
  stop : (Span.mk (byteCount lead) (byteCount (inside ++ outside))).stop? =
    some (byteCount (lead ++ (inside ++ outside)))
  line : l.line = lead.count '\n' + 1
  column : l.column = inside.length + 1
  text : l.text = String.ofList (trimReturns (inside ++ outside))
  caret : CaretUnder l.render (trimReturns (inside ++ outside)) inside

/-- The parts of a location agree about the place between two parts of a source. -/
def Location.Agrees (l : Location) (source : String) (before after : List Char) : Prop :=
  ∃ lead inside outside rest, before = lead ++ inside ∧ after = outside ++ rest ∧
    l.AgreesOn source lead inside outside rest

theorem mem_of_mem_trimReturns {c : Char} {line : List Char} (h : c ∈ trimReturns line) :
    c ∈ line :=
  List.mem_reverse.mp (List.dropWhile_sublist _ |>.mem (List.mem_reverse.mp h))

theorem linesBefore_append {lead inside : List Char} (hfree : '\n' ∉ inside)
    (hstarts : ∀ c ∈ lead.getLast?, c = '\n') : linesBefore (lead ++ inside) = lead := by
  rcases List.eq_nil_or_concat lead with rfl | ⟨lines, c, rfl⟩
  · exact (lastLine_of_not_mem hfree).1
  · obtain rfl : c = '\n' := hstarts c (by simp)
    rw [List.concat_eq_append, List.append_assoc]
    exact (lastLine_append_feed lines hfree).1

theorem getLast?_linesBefore (cs : List Char) : ∀ c ∈ (linesBefore cs).getLast?, c = '\n' := by
  intro c hc
  by_cases hfeed : '\n' ∈ cs
  · obtain ⟨lines, hlines⟩ := linesBefore_eq_concat hfeed
    rw [hlines, List.getLast?_concat] at hc
    exact (Option.some_inj.mp hc).symm
  · rw [(lastLine_of_not_mem hfeed).1] at hc
    cases hc

theorem head?_dropWhile_line (cs : List Char) :
    ∀ c ∈ (cs.dropWhile (· != '\n')).head?, c = '\n' := by
  intro c hc
  have hnot := List.head?_dropWhile_not (· != '\n') cs
  rw [Option.mem_def.mp hc] at hnot
  simpa using hnot

/-- The parts of a location agree unless a carriage return stands directly behind the line feed before
the line. -/
theorem Location.agrees_iff {source : String} {before after : List Char}
    (h : source.toList = before ++ after) (hsize : byteCount source.toList ≤ maxOffset) {l : Location}
    (hl : Location.of? source (byteCount before) = some l) :
    l.Agrees source before after ↔ ¬ReturnLed before after := by
  constructor
  · rintro ⟨lead, inside, outside, rest, rfl, rfl, hagrees⟩ hled
    have hlead := linesBefore_append (fun hin => hagrees.free (List.mem_append_left _ hin))
      hagrees.starts
    have haround := hagrees.around
    rw [h, lineAround_eq, if_pos hled, hlead] at haround
    exact Nat.succ_ne_self _ (congrArg Prod.fst haround)
  · intro hled
    obtain ⟨l', hl', hafter⟩ := Location.of?_byteCount h
    obtain rfl := Option.some_inj.mp (hl'.symm.trans hl)
    have hbefore := linesBefore_append_lastLine before
    have hbehind : firstLine after ++ after.dropWhile (· != '\n') = after :=
      List.takeWhile_append_dropWhile
    have hfree : '\n' ∉ lastLine before ++ firstLine after := fun hin =>
      (List.mem_append.mp hin).elim (not_mem_lastLine before) (not_mem_firstLine after)
    have haround : lineAround source.toList (byteCount before) =
        (byteCount (linesBefore before), lastLine before ++ firstLine after) := by
      rw [h, lineAround_eq, if_neg hled]
    have hsplit : source.toList = linesBefore before ++
        (lastLine before ++ firstLine after ++ after.dropWhile (· != '\n')) := by
      rw [List.append_assoc, hbehind, ← List.append_assoc, hbefore, h]
    have hcolumn : l'.column = (lastLine before).length + 1 := by
      rw [hafter.column, lastLine, List.length_reverse]
    have htext : l'.text = String.ofList (trimReturns (lastLine before ++ firstLine after)) := by
      obtain ⟨p, -, rfl⟩ := Option.map_eq_some_iff.mp hl
      rw [haround]
    refine ⟨linesBefore before, lastLine before, firstLine after, after.dropWhile (· != '\n'),
      hbefore.symm, hbehind.symm, hsplit, hfree, getLast?_linesBefore before,
      head?_dropWhile_line after, ?_, Span.fragment?_of_split _ _ _ hsplit, ?_, ?_, hcolumn, htext, ?_⟩
    · rw [hbefore, haround]
    · refine Span.stop?_eq_some_iff.mpr ⟨?_, (byteCount_append _ _).symm⟩
      rw [hsplit, ← List.append_assoc, byteCount_append, byteCount_append] at hsize
      exact (Nat.le_add_right _ _).trans hsize
    · rw [hafter.line, ← hbefore, List.count_append, List.count_eq_zero.mpr (not_mem_lastLine before),
        hbefore]
    · exact l'.render_caretUnder htext (fun hin => hfree (mem_of_mem_trimReturns hin)) hcolumn

/-! ## What is located -/

/-- What a cause complains about begins behind some characters of a source. A lexical cause is that
of the first lexical complaint, a grammatical one is about the first token that does not fit, and one
that concerns the meaning of the class is that of its first offence. -/
inductive Cause.BeginsAt (source : String) (before after : List Char) : Cause → Prop
  | lexical {cause : LexicalCause} :
      faultOf? source = some ⟨.lexical cause, byteCount before⟩ → cause.opening <+: after →
      BeginsAt source before after (.lexical cause)
  | grammar {cause : GrammarCause} {k : Nat} {t : Token} :
      FirstMisfit (tokensOf source) k → (tokensOf source)[k]? = some t →
      t.span.start = byteCount before → t.text.toList <+: after →
      BeginsAt source before after (.grammar cause)
  | meaning {cause : MeaningCause} {tree : ClassTree} {t : Token} :
      (parse source).outcome = .ok tree →
      tree.offences.head? = some ⟨.meaning cause, byteCount before⟩ → t ∈ tokensOf source →
      cause.Concerns t → t.span.start = byteCount before → t.text.toList <+: after →
      BeginsAt source before after (.meaning cause)

/-- A failure is a diagnosis, and its location is that of what it complains about. -/
def Failure.Located (f : Failure) (source : String) : Prop :=
  ∃ d before after, f = .diagnosed d ∧ source.toList = before ++ after ∧
    Location.of? source (byteCount before) = some d.location ∧ d.cause.BeginsAt source before after

theorem Complaint.failure_located {source : String} {before after : List Char} {e : Complaint}
    (h : source.toList = before ++ after) (hoffset : byteCount before = e.offset)
    (hbegins : e.cause.BeginsAt source before after) : (e.failure source).Located source := by
  obtain ⟨l, hl, -⟩ := Location.of?_byteCount h
  refine ⟨⟨e.cause, l⟩, before, after, ?_, h, hl, hbegins⟩
  rw [failure, diagnosis?, ← hoffset, hl]
  rfl

/-- A token of a source begins where its span does. -/
theorem token_opens {source : String} {t : Token} (ht : t ∈ tokensOf source) :
    ∃ before after, source.toList = before ++ after ∧ byteCount before = t.span.start ∧
      t.text.toList <+: after := by
  obtain ⟨l, -, before, after, hsource, hbefore, -⟩ :=
    (tokensOf_scans source).standsAt (.refl _) ht
  exact ⟨before, t.text.toList ++ after, by rw [hsource, List.append_assoc], hbefore,
    List.prefix_append _ _⟩

theorem readClass_located {source : String} {e : Complaint}
    (h : (readClass source).1 = .error e) : (e.failure source).Located source := by
  have hanswer := readClass_answer source
  rw [h] at hanswer
  cases hanswer with
  | @misfit us vs t cause hts _ hviable hnot =>
      have ht : t ∈ tokensOf source := by
        rw [hts]
        simp
      obtain ⟨before, after, hsource, hbefore, hprefix⟩ := token_opens ht
      have hfirst : FirstMisfit (tokensOf source) us.length := hts ▸ .of_viable hviable hnot
      refine Complaint.failure_located hsource hbefore ?_
      exact .grammar hfirst (by rw [hts]; simp) hbefore.symm hprefix
  | lexical he _ =>
      have hscans := tokensOf_scans source
      rw [he] at hscans
      obtain ⟨cause, before, after, hcause, hsource, hbefore, hopening⟩ :=
        hscans.fault_split (.refl _)
      refine Complaint.failure_located hsource hbefore ?_
      obtain ⟨_, offset⟩ := e
      obtain rfl : _ = _ := hcause
      exact .lexical (hbefore ▸ he) hopening

theorem offence_located {source : String} {tree : ClassTree} {e : Complaint}
    (h : (parse source).outcome = .ok tree) (he : tree.offences.head? = some e) :
    (e.failure source).Located source := by
  have hoffence := mem_offences_iff.mp (List.mem_of_head? he)
  obtain ⟨t, ht, hstart, cause, hcause, hconcerns⟩ :=
    hoffence.exists_concerned (parse_ok_writtenIn h).2
  obtain ⟨before, after, hsource, hbefore, hprefix⟩ := token_opens ht
  refine Complaint.failure_located hsource (hbefore.trans hstart) ?_
  obtain ⟨_, offset⟩ := e
  obtain rfl : _ = _ := hcause
  obtain rfl : byteCount before = offset := hbefore.trans hstart
  exact .meaning h he ht hconcerns hbefore.symm hprefix

theorem parse_located {source : String} {f : Failure} (h : (parse source).outcome = .error f) :
    f.Located source := by
  rcases hread : (readClass source).1 with e | tree
  · rw [parse_of_error hread] at h
    cases h
    exact readClass_located hread
  · rw [parse_of_ok hread] at h
    cases h

/-- Whatever keeps a source from being compiled is located where it begins. -/
theorem compile_located {o : Options} {source : String} {f : Failure}
    (h : (compile o source).outcome = .error f) : f.Located source := by
  unfold compile Report.compiled at h
  split at h
  · next hparse =>
    cases h
    exact parse_located (congrArg Report.outcome hparse)
  · next tree _ hparse =>
    have htree := congrArg Report.outcome hparse
    have hfault : (Generator.new.compile o tree).1.fault = tree.offences.head? :=
      tree.output_fault o (neverThis_of_parse htree)
    dsimp only at h
    split at h
    · next e he =>
      cases h
      exact offence_located htree (hfault.symm.trans he)
    · cases h

/-- Every place between characters of a source has a location, whose line, column, text and caret
agree about the place unless the line there follows a line feed with a carriage return directly
behind it. Whatever keeps a source from being compiled has the location of the place where it begins;
so its caret stands under the first character of the offending token, with the same exception. -/
theorem locations_agree (source : String) (hsize : byteCount source.toList ≤ maxOffset) :
    (∀ before after, source.toList = before ++ after →
      ∃ l, Location.of? source (byteCount before) = some l ∧
        (l.Agrees source before after ↔ ¬ReturnLed before after)) ∧
    ∀ o f, (compile o source).outcome = .error f → ∃ d before after,
      f = .diagnosed d ∧ source.toList = before ++ after ∧
        Location.of? source (byteCount before) = some d.location ∧
        d.cause.BeginsAt source before after ∧
        (d.location.Agrees source before after ↔ ¬ReturnLed before after) := by
  refine ⟨fun before after h => ?_, fun o f hf => ?_⟩
  · obtain ⟨l, hl, -⟩ := Location.of?_byteCount h
    exact ⟨l, hl, Location.agrees_iff h hsize hl⟩
  · obtain ⟨d, before, after, rfl, h, hl, hbegins⟩ := compile_located hf
    exact ⟨d, before, after, rfl, h, hl, hbegins, Location.agrees_iff h hsize hl⟩

/-- A string constant without its closing quote, on a line of its own between two line breaks of two
characters, behind characters of several bytes. -/
def brokenSource : String :=
  "// é\r\n 日\"\r\n"

theorem brokenSource_agrees : byteCount brokenSource.toList ≤ maxOffset ∧
    ∃ l, Location.of? brokenSource 11 = some l ∧
      l.render = "  |\n2 |  日\"\n  |   ^" ∧
      l.Agrees brokenSource "// é\r\n 日".toList "\"\r\n".toList := by
  have hsize : byteCount brokenSource.toList ≤ maxOffset := by decide
  obtain ⟨l, hl, hiff⟩ := (locations_agree brokenSource hsize).1 "// é\r\n 日".toList
    "\"\r\n".toList (by decide +kernel)
  have hshown : Location.of? brokenSource 11 = some ⟨2, 3, " 日\""⟩ := by decide +kernel
  have hplace : byteCount "// é\r\n 日".toList = 11 := by decide
  rw [hplace, hshown] at hl
  obtain rfl := Option.some_inj.mp hl
  exact ⟨hsize, _, hshown, by decide +kernel, hiff.mpr (by decide +kernel)⟩

/-- A source whose second line begins with a carriage return. -/
def returnLedSource : String :=
  "\n\r?"

/-- The caret under an unknown character stands behind the end of the line that is shown, and the
line that is found around the carriage return before it starts behind that. -/
theorem returnLedSource_disagrees : ∃ l,
    (compile .standard returnLedSource).outcome =
        .error (.diagnosed ⟨.lexical (.unknownCharacter '?'), l⟩) ∧
      Location.of? returnLedSource 2 = some l ∧ returnLedSource.toList = ['\n', '\r'] ++ ['?'] ∧
      l.render = "  |\n2 | ?\n  |  ^" ∧ ¬l.Agrees returnLedSource ['\n', '\r'] ['?'] ∧
      lineAround returnLedSource.toList 1 = (2, ['?']) := by
  have hsplit : returnLedSource.toList = ['\n', '\r'] ++ ['?'] := by decide +kernel
  have hl : Location.of? returnLedSource (byteCount ['\n', '\r']) = some ⟨2, 2, "?"⟩ := by
    decide +kernel
  have hnot := (Location.agrees_iff hsplit (by decide) hl).not.mpr (by decide)
  exact ⟨_, by decide +kernel, hl, hsplit, by decide +kernel, hnot, by decide +kernel⟩

end JackCompiler
