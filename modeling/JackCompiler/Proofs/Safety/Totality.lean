import JackCompiler.Proofs.Declarations.Outcomes
import JackCompiler.Proofs.Safety.Ascii
import JackCompiler.Proofs.Safety.Calls
import JackCompiler.Proofs.Tables.Writing

/-!
# Every source has an outcome

Whatever a source says, compiling it, listing its tokens and scanning it end with an answer or with
a diagnosis, and every slice of the source that is taken on the way is one. What is emitted is
ASCII.

## Implementation notes

A complaint whose offset falls inside a character would stay without a location. That no such
complaint is ever made is a fact about all three phases: complaints of the scanner stand where it
began to read a token, and the others stand where a token does.
-/

namespace JackCompiler

/-- A location is cut from a source somewhere between its characters. -/
def Location.Cut (l : Location) (source : String) : Prop :=
  ∃ before after, l.CutAt source before after

/-- An outcome is an answer with a property, a diagnosis whose location is cut from the source, or
a failure of another kind that may occur. -/
def SafeOutcome {α : Type} (source : String) (good : α → Prop) (other : Failure → Prop) :
    Except Failure α → Prop
  | .ok a => good a
  | .error (.diagnosed d) => d.location.Cut source
  | .error f => other f

/-- A complaint between characters of a source is diagnosed, with a location cut from the source. -/
theorem Complaint.failure_safe {source : String} {e : Complaint} {before after : List Char}
    (h : source.toList = before ++ after) (he : byteCount before = e.offset) {α : Type}
    (good : α → Prop) (other : Failure → Prop) :
    SafeOutcome source good other (.error (e.failure source)) := by
  obtain ⟨l, hl, hcut⟩ := Location.of?_cutAt h
  rw [he] at hl
  rw [Complaint.failure, Complaint.diagnosis?, hl]
  exact ⟨before, after, hcut⟩

/-! ## Tokens and complaints of the scanner -/

/-- Tokens and the complaint that ends them are answers to calls. -/
theorem Scans.reached {source : String} {s : Scanner} {ts : List Token} {e : Option Complaint}
    (h : Scans s ts e) (hs : Scanner.Reached source s) :
    (∀ t ∈ ts, ∃ s', Scanner.Reached source s' ∧ s'.next.1 = .ok t) ∧
      ∀ c, e = some c → ∃ s', Scanner.Reached source s' ∧ s'.next.1 = .error c := by
  induction h with
  | finish hnext _ =>
      refine ⟨fun t ht => ?_, fun c hc => absurd hc (Option.some_ne_none c).symm⟩
      obtain rfl := List.mem_singleton.mp ht
      exact ⟨_, hs, by rw [hnext]⟩
  | token hnext _ _ ih =>
      have hcall := hs.call
      rw [hnext] at hcall
      obtain ⟨htokens, hfault⟩ := ih hcall
      exact ⟨List.forall_mem_cons.mpr ⟨⟨_, hs, by rw [hnext]⟩, htokens⟩, hfault⟩
  | fault hnext =>
      refine ⟨fun t ht => absurd ht List.not_mem_nil, fun c hc => ?_⟩
      cases hc
      exact ⟨_, hs, by rw [hnext]⟩

theorem faultOf?_split {source : String} {e : Complaint} (h : faultOf? source = some e) :
    ∃ before after, source.toList = before ++ after ∧ byteCount before = e.offset := by
  have hscans := tokensOf_scans source
  rw [h] at hscans
  obtain ⟨-, before, after, -, hsource, hoffset, -⟩ := hscans.fault_split (.refl _)
  exact ⟨before, after, hsource, hoffset⟩

theorem token_split {source : String} {t : Token} (ht : t ∈ tokensOf source) :
    ∃ before after, source.toList = before ++ after ∧ byteCount before = t.span.start := by
  obtain ⟨l, -, before, after, hsource, hbefore, -⟩ :=
    (tokensOf_scans source).standsAt (.refl _) ht
  exact ⟨before, t.text.toList ++ after, by rw [hsource, List.append_assoc], hbefore⟩

/-! ## Outcomes -/

/-- A complaint about reading a source stands between characters. -/
theorem readClass_split {source : String} {e : Complaint} (h : (readClass source).1 = .error e) :
    ∃ before after, source.toList = before ++ after ∧ byteCount before = e.offset := by
  have hanswer := readClass_answer source
  rw [h] at hanswer
  cases hanswer with
  | misfit hts _ _ _ => exact token_split (by rw [hts]; simp)
  | lexical he _ => exact faultOf?_split he

theorem offence_split {source : String} {tree : ClassTree}
    (h : (parse source).outcome = .ok tree) {e : Complaint} (he : e ∈ tree.offences) :
    ∃ before after, source.toList = before ++ after ∧ byteCount before = e.offset := by
  obtain ⟨t, ht, hstart⟩ := (mem_offences_iff.mp he).exists_token (parse_ok_writtenIn h).2
  rw [← hstart]
  exact token_split ht

/-- Reading a source gives a tree or a diagnosis. -/
theorem parse_safe (source : String) :
    SafeOutcome source (fun _ => True) (fun _ => False) (parse source).outcome := by
  rcases hr : (readClass source).1 with e | tree
  · obtain ⟨before, after, hsource, hoffset⟩ := readClass_split hr
    rw [parse_of_error hr]
    exact Complaint.failure_safe hsource hoffset _ _
  · rw [parse_of_ok hr]
    trivial

theorem SafeOutcome.of_error {α β : Type} {source : String} {good : α → Prop} {f : Failure}
    (h : SafeOutcome source good (fun _ => False) (.error f)) (good' : β → Prop)
    (other : Failure → Prop) : SafeOutcome source good' other (.error f) := by
  cases f with
  | diagnosed d => exact h
  | unplaced | torn | sink | tableFull => exact h.elim

theorem isAscii_listing {code : List Instruction} (h : ∀ i ∈ code, IsAscii i.line) :
    IsAscii (listing code) := by
  induction code with
  | nil => decide
  | cons i code ih =>
      obtain ⟨hi, hcode⟩ := List.forall_mem_cons.mp h
      rw [listing_cons]
      exact hi.append (ih hcode)

/-- The code of a source is ASCII, and a complaint that stops it stands between characters. -/
theorem generated_safe {source : String} {tree : ClassTree}
    (h : (parse source).outcome = .ok tree) (o : Options) :
    (Generator.new.compile o tree).1.instructions.All (IsAscii ·.line) ∧
      ∀ e, (Generator.new.compile o tree).1.fault = some e →
        ∃ before after, source.toList = before ++ after ∧ byteCount before = e.offset := by
  refine ⟨output_isAscii h o, fun e he => ?_⟩
  have hfault : (Generator.new.compile o tree).1.fault = tree.offences.head? :=
    tree.output_fault o (neverThis_of_parse h)
  rw [hfault] at he
  exact offence_split h (List.mem_of_head? he)

/-- Compiling a source gives an ASCII text or a diagnosis. -/
theorem compile_safe (o : Options) (source : String) :
    SafeOutcome source IsAscii (fun _ => False) (compile o source).outcome := by
  have hparsed := parse_safe source
  unfold compile Report.compiled
  split
  · next hparse =>
    rw [hparse] at hparsed
    exact hparsed.of_error _ _
  · next tree _ hparse =>
    obtain ⟨hascii, hsplit⟩ := generated_safe (congrArg Report.outcome hparse) o
    dsimp only
    split
    · next e he =>
      obtain ⟨before, after, hsource, hoffset⟩ := hsplit e he
      exact Complaint.failure_safe hsource hoffset _ _
    · exact isAscii_listing hascii

/-- A trail whose complaint stands between characters is delivered, diagnosed or refused. -/
theorem Sink.deliver_safe (s : Sink) {source : String} {t : Trail Record}
    (h : ∀ e, t.fault = some e →
      ∃ before after, source.toList = before ++ after ∧ byteCount before = e.offset) :
    SafeOutcome source (fun _ => True) (∃ e, · = .sink e) (s.deliver source t).1.outcome := by
  unfold deliver Writer.deliver
  split
  · exact ⟨_, rfl⟩
  · split
    · next e he =>
      obtain ⟨before, after, hsource, hoffset⟩ := h e he
      exact Complaint.failure_safe hsource hoffset _ _
    · split
      · trivial
      · exact ⟨_, rfl⟩

/-- Compiling a source into a sink ends well, with a diagnosis or with a refusal of the sink, and
whatever the sink takes is ASCII. -/
theorem compileInto_safe (o : Options) (source : String) (sink : Sink) :
    SafeOutcome source (fun _ => True) (∃ e, · = .sink e) (compileInto o source sink).1.outcome ∧
      sink.Extends (compileInto o source sink).2 := by
  have hparsed := parse_safe source
  unfold compileInto Report.compiledInto
  split
  · next hparse =>
    rw [hparse] at hparsed
    exact ⟨hparsed.of_error _ _, .refl sink⟩
  · next tree _ hparse =>
    obtain ⟨hascii, hsplit⟩ := generated_safe (congrArg Report.outcome hparse) o
    exact ⟨sink.deliver_safe hsplit, .deliver sink source hascii⟩

/-! ## Token tables -/

theorem tableOutcome_safe (source : String) (other : Failure → Prop) :
    SafeOutcome source (fun _ => True) other (tableOutcome source) := by
  rw [tableOutcome]
  cases he : faultOf? source with
  | none => trivial
  | some e =>
      obtain ⟨before, after, hsource, hoffset⟩ := faultOf?_split he
      exact Complaint.failure_safe hsource hoffset _ _

/-- Listing the tokens of a source ends well, with a diagnosis or at the limit of the sink. -/
theorem tokenTable_safe (source : String) (sink : TextSink) :
    SafeOutcome source (fun _ => True) (fun f => f = .tableFull ∧ sink.room ≠ none)
      (tokenTable source sink).1.outcome := by
  obtain ⟨room, content⟩ := sink
  cases room with
  | none =>
      rw [(tokenTable_unlimited source content).1]
      exact tableOutcome_safe source _
  | some room =>
      rw [(tokenTable_limited source content room).1]
      split
      · exact tableOutcome_safe source _
      · exact ⟨rfl, Option.some_ne_none room⟩

/-- No source stops the compiler on its way. Every answer to a call of the scanner, the tokens of
the source and the complaint that ends them among them, is cut from the source; compiling the source
and listing its tokens end with an answer, with a diagnosis that is cut from the source, or with a
refusal of the sink; what is emitted is ASCII; and the number of fields of a class is a word. -/
theorem source_safe (source : String) (hsize : byteCount source.toList ≤ maxOffset) :
    (∀ s, Scanner.Reached source s → SlicedAnswer source s.next) ∧
    (∀ t ∈ tokensOf source, ∃ s, Scanner.Reached source s ∧ s.next.1 = .ok t) ∧
    (∀ e, faultOf? source = some e → ∃ s, Scanner.Reached source s ∧ s.next.1 = .error e) ∧
    (∀ o, SafeOutcome source IsAscii (fun _ => False) (compile o source).outcome) ∧
    (∀ o sink,
      SafeOutcome source (fun _ => True) (∃ e, · = .sink e) (compileInto o source sink).1.outcome ∧
        sink.Extends (compileInto o source sink).2) ∧
    (∀ sink, SafeOutcome source (fun _ => True) (fun f => f = .tableFull ∧ sink.room ≠ none)
      (tokenTable source sink).1.outcome) ∧
    ∀ tree, (parse source).outcome = .ok tree →
      (UInt16.ofNat (tree.scope.count .field)).toNat = tree.scope.count .field := by
  obtain ⟨htokens, hfault⟩ := (tokensOf_scans source).reached .start
  refine ⟨fun s hs => hs.slicedAnswer hsize, htokens, hfault, fun o => compile_safe o source,
    fun o sink => compileInto_safe o source sink, fun sink => tokenTable_safe source sink,
    fun tree _ => ?_⟩
  exact UInt16.toNat_ofNat_of_lt'
    (Nat.lt_of_le_of_lt (tree.count_scope_le .field) (by decide : maxVariables < UInt16.size))

/-- A source that is cut off behind characters of several bytes, on a line of its own. -/
def cutSource : String :=
  "// é\n\r\"日"

theorem cutSource_safe : byteCount cutSource.toList ≤ maxOffset ∧
    ∀ o, ∃ d, (compile o cutSource).outcome = .error (.diagnosed d) ∧
      d.location.Cut cutSource := by
  have hsize : byteCount cutSource.toList ≤ maxOffset := by decide
  refine ⟨hsize, fun o => ?_⟩
  have hsafe := (source_safe cutSource hsize).2.2.2.1 o
  have hnot : (compile o cutSource).outcome.isOk = false := by
    obtain ⟨n, p⟩ := o
    cases n <;> cases p <;> decide +kernel
  rcases hrun : (compile o cutSource).outcome with f | text
  · rw [hrun] at hsafe
    cases f with
    | diagnosed d => exact ⟨d, rfl, hsafe⟩
    | unplaced | torn | sink | tableFull => exact hsafe.elim
  · rw [hrun] at hnot
    cases hnot

end JackCompiler
