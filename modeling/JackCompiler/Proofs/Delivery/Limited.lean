import JackCompiler.Proofs.Delivery.Unlimited
import JackCompiler.Proofs.Delivery.Writers

/-!
# Sinks that fail

A sink that runs full cuts a listing and does nothing else to it: it has the first bytes of the
listing, as many as there is room for, and the outcome says that it is full. A sink that cannot be
flushed has the whole listing, and changes the outcome only if all was well before.

## Implementation notes

A sink that gets a text in pieces takes of them what it would take of the text as a whole. So what it
has of a listing is what it has after one write.
-/

namespace JackCompiler

theorem join_pieces (code : List Instruction) :
    String.join (code.flatMap Instruction.pieces) = listing code := by
  induction code with
  | nil => rfl
  | cons i is ih =>
      have hline : String.join i.pieces = i.line := rfl
      rw [List.flatMap_cons, String.join_append, hline, ih, listing_cons]

/-- An outcome after a flush that fails or not. A failure that there was before stays. -/
def afterFlush (flushFails : Bool) : Except Failure Unit → Except Failure Unit
  | .error e => .error e
  | .ok _ => if flushFails then .error (.sink .flushFailed) else .ok ()

theorem afterFlush_false (outcome : Except Failure Unit) : afterFlush false outcome = outcome := by
  rcases outcome with e | ⟨⟩ <;> rfl

namespace Sink

/-! ## Writing in pieces -/

theorem write_empty (s : Sink) : s.write "" = (.ok (), s) := by
  obtain ⟨_ | room, flushFails, content⟩ := s
  · exact congrArg (fun bytes => (Except.ok (), Sink.mk none flushFails bytes))
      ByteArray.append_empty
  · exact congrArg (fun bytes => (Except.ok (), Sink.mk (some room) flushFails bytes))
      ByteArray.append_empty

theorem extract_of_size_le {bytes : ByteArray} {n : Nat} (h : bytes.size ≤ n) :
    bytes.extract 0 n = bytes := by
  rw [← Nat.max_eq_left h]
  exact ByteArray.extract_zero_max_size

/-- A text is written as its parts are written one after the other, unless the first is refused. -/
theorem write_append (s : Sink) (a b : String) :
    s.write (a ++ b) = match s.write a with
      | (.ok _, s) => s.write b
      | (.error e, s) => (.error e, s) := by
  have happend : (a ++ b).toUTF8 = a.toUTF8 ++ b.toUTF8 := String.toByteArray_append
  obtain ⟨_ | room, flushFails, content⟩ := s
  · simp only [write, happend, ByteArray.append_assoc]
  · simp only [write, happend, ByteArray.size_append]
    by_cases ha : a.toUTF8.size ≤ room
    · simp only [if_pos ha]
      by_cases hb : b.toUTF8.size ≤ room - a.toUTF8.size
      · rw [if_pos hb, if_pos (by omega), ByteArray.append_assoc, Nat.sub_sub]
      · have hextract : (a.toUTF8 ++ b.toUTF8).extract 0 room =
            a.toUTF8 ++ b.toUTF8.extract 0 (room - a.toUTF8.size) := by
          rw [ByteArray.extract_append, extract_of_size_le ha, Nat.zero_sub]
        rw [if_neg hb, if_neg (by omega), hextract, ByteArray.append_assoc]
    · have hextract : (a.toUTF8 ++ b.toUTF8).extract 0 room = a.toUTF8.extract 0 room := by
        have hnone : room - a.toUTF8.size = 0 := Nat.sub_eq_zero_of_le (Nat.le_of_not_le ha)
        rw [ByteArray.extract_append, hnone, Nat.zero_sub, ByteArray.extract_same,
          ByteArray.append_empty]
      rw [if_neg ha, if_neg (by omega), hextract]

/-- Texts are written one after the other as their concatenation is. -/
theorem writer_writeAll (texts : List String) (s : Sink) :
    writer.writeAll s texts = s.write (String.join texts) := by
  induction texts generalizing s with
  | nil => exact s.write_empty.symm
  | cons text texts ih =>
      have hwriter : writer.write s text = s.write text := rfl
      rw [String.join_cons, write_append, Writer.writeAll, hwriter]
      rcases s.write text with ⟨e | ⟨⟩, s'⟩
      · rfl
      · exact ih s'

/-- A sink that takes a listing as a whole is flushed, unless the code was stopped. -/
theorem settle_of_ok {s s' : Sink} {t : Code} (source : String)
    (h : s.write (listing t.items) = (.ok (), s')) :
    writer.settle s source t = (afterFlush s'.flushFails (t.outcome source), s') := by
  rw [Writer.settle, writer_writeAll, join_pieces, h, Trail.outcome]
  dsimp only
  cases t.fault with
  | some c => rfl
  | none =>
      obtain ⟨room, _ | _, content⟩ := s' <;> rfl

theorem settle_of_error {s s' : Sink} {t : Code} {e : SinkError} (source : String)
    (h : s.write (listing t.items) = (.error e, s')) :
    writer.settle s source t = (.error (.sink e), s') := by
  rw [Writer.settle, writer_writeAll, join_pieces, h]

/-! ## Empty sinks -/

variable {limit : Option Nat} {text : String} (flushFails : Bool)

/-- An empty sink with room for a text takes it as a whole. -/
theorem write_of_fits (h : ∀ l ∈ limit, text.toUTF8.size ≤ l) :
    ∃ room, (empty limit flushFails).write text = (.ok (), ⟨room, flushFails, text.toUTF8⟩) := by
  cases limit with
  | none => exact ⟨none, by simp [write, empty]⟩
  | some l =>
      have hl := h l rfl
      exact ⟨some (l - text.toUTF8.size), by simpa [write, empty] using hl⟩

/-- An empty sink without room for a text takes the first bytes of it. -/
theorem write_of_lt {l : Nat} (h : l < text.toUTF8.size) : (empty (some l) flushFails).write text =
    (.error .full, ⟨some 0, flushFails, text.toUTF8.extract 0 l⟩) := by
  simpa [write, empty] using h

end Sink

/-! ## Compilations -/

variable {o : Options} {source : String} {tree : ClassTree} {limit : Option Nat} (flushFails : Bool)

theorem ending_compileInto (h : (parse source).outcome = .ok tree) (s : Sink) :
    ending (compileInto o source s) = Sink.writer.settle s source (tree.output o) := by
  rw [compileInto_eq_writer, Writer.compileInto_eq, h]

/-- A sink with room for the listing of a class has all of it in the end. -/
theorem compileInto_of_fits (h : (parse source).outcome = .ok tree)
    (hfits : ∀ l ∈ limit, (listing (tree.output o).items).toUTF8.size ≤ l) :
    (compileInto o source (.empty limit flushFails)).1.outcome =
        afterFlush flushFails ((tree.output o).outcome source) ∧
      (compileInto o source (.empty limit flushFails)).2.content =
        (listing (tree.output o).items).toUTF8 := by
  obtain ⟨room, hwrite⟩ := Sink.write_of_fits flushFails hfits
  obtain ⟨houtcome, hsink⟩ :=
    Prod.mk.inj ((ending_compileInto h _).trans (Sink.settle_of_ok source hwrite))
  exact ⟨houtcome, congrArg Sink.content hsink⟩

/-- A sink without room for the listing of a class has the first bytes of it in the end. -/
theorem compileInto_of_lt (h : (parse source).outcome = .ok tree) {l : Nat}
    (hl : l < (listing (tree.output o).items).toUTF8.size) :
    (compileInto o source (.empty (some l) flushFails)).1.outcome = .error (.sink .full) ∧
      (compileInto o source (.empty (some l) flushFails)).2.content =
        (listing (tree.output o).items).toUTF8.extract 0 l := by
  obtain ⟨houtcome, hsink⟩ := Prod.mk.inj ((ending_compileInto h _).trans
    (Sink.settle_of_error source (Sink.write_of_lt flushFails hl)))
  exact ⟨houtcome, congrArg Sink.content hsink⟩

/-- A sink that is full or that cannot be flushed has what fits of the text that a sink that never
fails has, and changes the outcome only if it is full before the text ends or if all is well before
the flush. -/
theorem compileInto_limited (o : Options) (source : String) (limit : Option Nat)
    (flushFails : Bool) :
    let full := compileInto o source (.empty none false)
    let cut := compileInto o source (.empty limit flushFails)
    let size := full.2.content.size
    cut.2.content = full.2.content.extract 0 (min (limit.getD size) size) ∧
    ((∃ l ∈ limit, l < size) → cut.1.outcome = .error (.sink .full)) ∧
    ((∀ l ∈ limit, size ≤ l) → cut.1.outcome = afterFlush flushFails full.1.outcome) := by
  dsimp only
  rcases hparse : (parse source).outcome with e | tree
  · have hrun (s : Sink) : ending (compileInto o source s) = (.error e, s) := by
      rw [compileInto_eq_writer, Writer.compileInto_eq, hparse]
    obtain ⟨hfull, hfullSink⟩ := Prod.mk.inj (hrun (.empty none false))
    obtain ⟨hcut, hcutSink⟩ := Prod.mk.inj (hrun (.empty limit flushFails))
    have hsize : (Sink.empty none false).content.size = 0 := rfl
    rw [hfull, hfullSink, hcut, hcutSink, hsize, Nat.min_zero]
    refine ⟨ByteArray.extract_same.symm, ?_, fun _ => rfl⟩
    rintro ⟨l, -, hl⟩
    exact absurd hl (Nat.not_lt_zero l)
  · obtain ⟨hfull, hfullContent⟩ := compileInto_of_fits (o := o) false hparse
      fun l hl => absurd hl (Option.not_mem_none l)
    rw [hfull, hfullContent, afterFlush_false]
    by_cases hfits : ∀ l ∈ limit, (listing (tree.output o).items).toUTF8.size ≤ l
    · obtain ⟨hcut, hcutContent⟩ := compileInto_of_fits flushFails hparse hfits
      rw [hcut, hcutContent]
      refine ⟨?_, ?_, fun _ => rfl⟩
      · rw [Sink.extract_of_size_le]
        cases limit with
        | none => exact Nat.le_min.mpr ⟨Nat.le_refl _, Nat.le_refl _⟩
        | some l => exact Nat.le_min.mpr ⟨hfits l rfl, Nat.le_refl _⟩
      · rintro ⟨l, hl, hlt⟩
        exact absurd (hfits l hl) (Nat.not_le.mpr hlt)
    · obtain ⟨l, rfl, hl⟩ : ∃ l, limit = some l ∧ l < (listing (tree.output o).items).toUTF8.size := by
        simpa using hfits
      obtain ⟨hcut, hcutContent⟩ := compileInto_of_lt flushFails hparse hl
      rw [hcut, hcutContent, Option.getD_some, Nat.min_eq_left (Nat.le_of_lt hl)]
      exact ⟨rfl, fun _ => rfl, fun hall => absurd (hall l rfl) (Nat.not_le.mpr hl)⟩

/-- What becomes of a compilation when its sink fails. A sink that runs full has the first bytes of
the text that a sink that never fails has, and the outcome is the refusal if that text is longer, and
otherwise what it would have been. Any writer is asked for nothing if the source does not parse. It is
flushed once and last, and the outcome is its answer, if all code has been written; otherwise it is
not flushed, the outcome is a failure, and how a flush would have been answered makes no difference.
Keeping what a writer is asked changes nothing about it, and sinks are compiled into as writers. -/
theorem compileInto_delivery (o : Options) (source : String) :
    (∀ (limit : Option Nat) (flushFails : Bool),
      let full := compileInto o source (.empty none false)
      let cut := compileInto o source (.empty limit flushFails)
      let size := full.2.content.size
      cut.2.content = full.2.content.extract 0 (min (limit.getD size) size) ∧
      ((∃ l ∈ limit, l < size) → cut.1.outcome = .error (.sink .full)) ∧
      ((∀ l ∈ limit, size ≤ l) → cut.1.outcome = afterFlush flushFails full.1.outcome)) ∧
    (∀ {σ : Type} (w : Writer σ) (s : σ),
      let run := w.recorded.compileInto o source (s, [])
      (run.1.outcome, run.2.1) = ending (w.compileInto o source s) ∧
      (∀ e, (parse source).outcome = .error e → ending run = (.error e, s, [])) ∧
      (∀ s', w.Completes o source s s' → run.2.2.count .flush = 1 ∧
        run.2.2.getLast? = some .flush ∧ ending (w.compileInto o source s) = w.finish s') ∧
      ((∀ s', ¬w.Completes o source s s') → .flush ∉ run.2.2 ∧ run.1.outcome ≠ .ok () ∧
        ∀ flush, ending (({ w with flush := flush } : Writer σ).compileInto o source s) =
          ending (w.compileInto o source s))) ∧
    ∀ sink, compileInto o source sink = Sink.writer.compileInto o source sink := by
  exact ⟨compileInto_limited o source, fun w s => w.compileInto_requests o source s,
    compileInto_eq_writer o source⟩

end JackCompiler
