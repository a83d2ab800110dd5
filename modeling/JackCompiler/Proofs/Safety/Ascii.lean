import JackCompiler.Proofs.Output.Lines

/-!
# The listing is ASCII

Names are words of ASCII characters, and everything else that an instruction shows is fixed or made
of digits. So every line of a listing is ASCII, and a sink gets bytes below 128 only, whether or not
the class compiles and whether or not the sink takes all of them.
-/

namespace JackCompiler

/-- All characters of a text are ASCII characters. -/
def IsAscii (text : String) : Prop :=
  ∀ c ∈ text.toList, c.toNat < 128

instance : DecidablePred IsAscii :=
  fun text => decidable_of_iff (text.toList.all (·.toNat < 128) = true) (by simp [IsAscii])

namespace IsAscii

theorem append {a b : String} (ha : IsAscii a) (hb : IsAscii b) : IsAscii (a ++ b) := by
  intro c hc
  rw [String.toList_append] at hc
  rcases List.mem_append.mp hc with hc | hc
  · exact ha c hc
  · exact hb c hc

theorem number (n : Nat) : IsAscii (toString n) := by
  intro c hc
  rw [Nat.toString_eq_repr, Nat.toList_repr] at hc
  have hdigit := Nat.isDigit_of_mem_toDigits (by decide) (by decide) hc
  exact Nat.lt_of_le_of_lt (Char.isDigit_iff_toNat.mp hdigit).2 (by decide)

/-- An ASCII text has one byte for each character. -/
theorem bytes {text : String} (h : IsAscii text) : ∀ b ∈ text.toUTF8.data, b.toNat < 128 := by
  intro b hb
  rw [String.toUTF8, ← String.utf8Encode_toList, List.utf8Encode, List.data_toByteArray] at hb
  obtain ⟨c, hc, hb⟩ := List.mem_flatMap.mp (List.mem_toArray.mp hb)
  have hlt : c.val.toNat < 128 := h c hc
  rw [String.utf8EncodeChar, if_pos (Nat.le_of_lt_succ hlt)] at hb
  obtain rfl := List.mem_singleton.mp hb
  rw [UInt8.toNat_ofNat_of_lt' (Nat.lt_trans hlt (by decide))]
  exact hlt

end IsAscii

theorem IsWordText.isAscii {text : String} (h : IsWordText text) : IsAscii text := by
  intro c hc
  have := toNat_of_isWordChar (h.chars c hc)
  omega

/-! ## Instructions -/

namespace Instruction

open IsAscii

/-- The texts that code takes from a source are ASCII. -/
structure AsciiTexts (f : Frame) (ms : List Mention) : Prop where
  className : IsAscii f.className
  types : ∀ {x : String} {v : Variable}, f.lookup? x = some v → IsAscii v.type.text
  names : ∀ {role : Role} {n : Name}, .name role n ∈ ms → IsAscii n.text

/-- The lines of instructions with a name and a number. -/
theorem isAscii_numbered {word name : String} (hword : IsAscii word) (hname : IsAscii name)
    (n : Nat) : IsAscii (word ++ name ++ " " ++ toString n ++ "\n") :=
  (((hword.append hname).append (by decide)).append (number n)).append (by decide)

theorem isAscii_segment (s : Segment) : IsAscii s.text := by
  cases s <;> decide

theorem isAscii_push (s : Segment) (index : UInt16) : IsAscii (push s index).line :=
  isAscii_numbered (by decide) (isAscii_segment s) _

theorem isAscii_pop (s : Segment) (index : UInt16) : IsAscii (pop s index).line :=
  isAscii_numbered (by decide) (isAscii_segment s) _

theorem isAscii_call {name : String} (h : IsAscii name) (args : Nat) :
    IsAscii (call name args).line :=
  isAscii_numbered (by decide) h _

theorem isAscii_function {name : String} (h : IsAscii name) (locals : Nat) :
    IsAscii (function name locals).line :=
  isAscii_numbered (by decide) h _

/-- The lines of instructions with a label. -/
theorem isAscii_labelled {word : String} (hword : IsAscii word) (stem : LabelStem) (n : Nat) :
    IsAscii (word ++ (Label.numbered stem n).text ++ "\n") := by
  have hstem : IsAscii stem.text := by cases stem <;> decide
  exact (hword.append (hstem.append (number n))).append (by decide)

theorem isAscii_qualified {a b : String} (ha : IsAscii a) (hb : IsAscii b) :
    IsAscii (a ++ "." ++ b) :=
  (ha.append (by decide)).append hb

variable {f : Frame} {ms : List Mention} {i : Instruction}

theorem OfExpr.isAscii_line (h : AsciiTexts f ms) (hi : OfExpr f ms i) : IsAscii i.line := by
  cases hi with
  | constant | number | cell | current | element => exact isAscii_push _ _
  | anchor => exact isAscii_pop _ _
  | command c => cases c <;> decide
  | library hname =>
      have hall : ∀ name ∈ libraryNames, IsAscii name := by decide
      exact isAscii_call (hall _ hname) _
  | own hn => exact isAscii_call (isAscii_qualified h.className (h.names hn)) _
  | object hv hn => exact isAscii_call (isAscii_qualified (h.types hv) (h.names hn)) _
  | qualified hr hn => exact isAscii_call (isAscii_qualified (h.names hr) (h.names hn)) _

theorem OfStmt.isAscii_line (h : AsciiTexts f ms) (hi : OfStmt f ms i) : IsAscii i.line := by
  cases hi with
  | expr hi => exact hi.isAscii_line h
  | pushTemp => exact isAscii_push _ _
  | setCell | popTemp | setElement => exact isAscii_pop _ _
  | label stem n | goto stem n | ifGoto stem n => exact isAscii_labelled (by decide) stem n
  | ret => decide

end Instruction

/-! ## Classes -/

open Instruction IsAscii

/-- The texts that the code of a subroutine takes from a source that parses are ASCII. -/
theorem asciiTexts_of_parse {source : String} {tree : ClassTree}
    (h : (parse source).outcome = .ok tree) {s : Subroutine} (hs : s ∈ tree.subroutines) :
    AsciiTexts (tree.frame s) s.mentions := by
  have hwords := wordTexts_of_parse h hs
  exact ⟨hwords.className.isAscii, fun hv => (hwords.types hv).isAscii,
    fun hn => (hwords.names hn).isAscii⟩

theorem SubroutineKind.prologue_isAscii (k : SubroutineKind) (fields : Nat) :
    Code.All (IsAscii ·.line) (.of (k.prologue fields)) := by
  cases k with
  | constructor =>
      exact .cons (isAscii_push _ _) (.cons (isAscii_call (by decide) _)
        (.cons (isAscii_pop _ _) .nil))
  | method => exact .cons (isAscii_push _ _) (.cons (isAscii_pop _ _) .nil)
  | function => exact .nil

/-- All instructions that a source is compiled to have ASCII lines. -/
theorem output_isAscii {source : String} {tree : ClassTree}
    (h : (parse source).outcome = .ok tree) (o : Options) :
    (tree.output o).All (IsAscii ·.line) := by
  apply ClassTree.output_all
  intro s hs
  have htexts := asciiTexts_of_parse h hs
  constructor
  · have hname : IsAscii (tree.name.text ++ "." ++ s.name.text) :=
      isAscii_qualified htexts.className (htexts.names List.mem_cons_self)
    exact .cons (isAscii_function hname _) (s.kind.prologue_isAscii _)
  · have hbody : blockMentions s.body.block ⊆ s.mentions := fun m hm =>
      List.mem_cons_of_mem _ (List.mem_append_right _ hm)
    exact Code.All.mono (emitBlock_ofStmt o _ hbody _) fun i hi => hi.isAscii_line htexts

/-! ## Sinks -/

/-- A sink holds what another one does and ASCII bytes behind it. -/
def Sink.Extends (s s' : Sink) : Prop :=
  ∃ added : ByteArray, s'.content = s.content ++ added ∧ ∀ b ∈ added.data, b.toNat < 128

namespace Sink.Extends

theorem refl (s : Sink) : s.Extends s :=
  ⟨.empty, ByteArray.append_empty.symm, by simp⟩

theorem trans {s s' s'' : Sink} (h : s.Extends s') (h' : s'.Extends s'') : s.Extends s'' := by
  obtain ⟨a, ha, hbytes⟩ := h
  obtain ⟨b, hb, hbytes'⟩ := h'
  refine ⟨a ++ b, ?_, ?_⟩
  · rw [hb, ha, ByteArray.append_assoc]
  · intro x hx
    rw [ByteArray.data_append] at hx
    rcases Array.mem_append.mp hx with hx | hx
    · exact hbytes x hx
    · exact hbytes' x hx

/-- Writing an ASCII text adds ASCII bytes, also where the sink takes a part of them only. -/
theorem write (s : Sink) {text : String} (h : IsAscii text) : s.Extends (s.write text).2 := by
  rcases s with ⟨_ | room, flushFails, content⟩
  · exact ⟨text.toUTF8, rfl, h.bytes⟩
  · unfold Sink.write
    dsimp only
    split
    · exact ⟨text.toUTF8, rfl, h.bytes⟩
    · refine ⟨text.toUTF8.extract 0 room, rfl, fun b hb => h.bytes b ?_⟩
      rw [ByteArray.data_extract, ← Array.mem_toList_iff, Array.toList_extract] at hb
      exact Array.mem_toList_iff.mp (List.mem_of_mem_take hb)

/-- So does writing the line of an instruction, in its two parts. -/
theorem writeLine (s : Sink) {i : Instruction} (h : IsAscii i.line) :
    s.Extends (Sink.writer.writeLine s i).2 := by
  have htext : IsAscii i.text := by
    intro c hc
    refine h c ?_
    rw [Instruction.line, String.toList_append]
    exact List.mem_append_left _ hc
  have hwrite := write s htext
  rw [Writer.writeLine]
  split
  · next s' hs' =>
    have hs' : s.write i.text = (.ok (), s') := hs'
    rw [hs'] at hwrite
    exact hwrite.trans (write s' (by decide))
  · next s' hs' =>
    have hs' : s.write i.text = (.error _, s') := hs'
    rw [hs'] at hwrite
    exact hwrite

theorem deliverOnto (rs : List Record) (s : Sink) (done : List Record)
    (h : ∀ r ∈ rs, ∀ i, r.instruction? = some i → IsAscii i.line) :
    s.Extends (Sink.writer.deliverOnto s rs done).2.2 := by
  induction rs generalizing s done with
  | nil => exact refl s
  | cons r rs ih =>
      obtain ⟨hr, hrs⟩ := List.forall_mem_cons.mp h
      rw [Writer.deliverOnto]
      split
      · exact ih s _ hrs
      · next i hi =>
        have hwrite := writeLine s (hr i hi)
        split
        · next s' hs' =>
          rw [hs'] at hwrite
          exact hwrite.trans (ih s' _ hrs)
        · next s' hs' =>
          rw [hs'] at hwrite
          exact hwrite

/-- Whatever becomes of a trail with ASCII lines, a sink takes ASCII bytes of it. -/
theorem deliver (s : Sink) (source : String) {t : Trail Record}
    (h : t.instructions.All (IsAscii ·.line)) : s.Extends (s.deliver source t).2 := by
  have hextends : s.Extends (Sink.writer.deliverOnto s t.items []).2.2 := by
    refine deliverOnto t.items s [] fun r hr i hi => h i ?_
    exact List.mem_filterMap.mpr ⟨r, hr, hi⟩
  unfold Sink.deliver Writer.deliver
  split
  · next hrun =>
    rw [hrun] at hextends
    exact hextends
  · next hrun =>
    rw [hrun] at hextends
    split
    · exact hextends
    -- Flushing does not change what a sink holds.
    · split <;> next hflush =>
        obtain ⟨-, rfl⟩ := Prod.mk.inj hflush
        exact hextends

end Sink.Extends

end JackCompiler
