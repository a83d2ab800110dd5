import JackCompiler.Compiler
import JackCompiler.Proofs.Output.Functions

/-!
# Sinks that never fail

A sink with room for everything takes the whole listing of a trail, whether or not a complaint
stopped the trail, and then shows what it was before and the listing behind it. What is reported does
not depend on what the sink held.
-/

namespace JackCompiler

theorem foldl_line (text : String) (code : List Instruction) :
    code.foldl (fun text i => text ++ i.line) text = text ++ listing code := by
  induction code generalizing text with
  | nil => exact String.append_empty.symm
  | cons i is ih =>
      rw [listing, List.foldl_cons, List.foldl_cons, ih, ih, String.empty_append,
        String.append_assoc]

theorem listing_cons (i : Instruction) (is : List Instruction) :
    listing (i :: is) = i.line ++ listing is := by
  rw [listing, List.foldl_cons, foldl_line, String.empty_append]

theorem listing_append (xs ys : List Instruction) :
    listing (xs ++ ys) = listing xs ++ listing ys := by
  rw [listing, List.foldl_append, foldl_line]
  rfl

/-- The text of pieces of code is that of the pieces in order. -/
theorem listing_flatMap {α : Type} (as : List α) (code : α → List Instruction) :
    listing (as.flatMap code) = String.join (as.map fun a => listing (code a)) := by
  induction as with
  | nil => rfl
  | cons a as ih => rw [List.flatMap_cons, listing_append, ih, List.map_cons, String.join_cons]

/-- The outcome of a trail that is taken as a whole. -/
def Trail.outcome {α : Type} (t : Trail α) (source : String) : Except Failure Unit :=
  match t.fault with
  | some c => .error (c.failure source)
  | none => .ok ()

namespace Sink

/-- A sink that takes everything and can be flushed. -/
structure Unlimited (s : Sink) : Prop where
  room : s.room = none
  flushes : s.flushFails = false

/-- A sink with more in it. -/
def extend (s : Sink) (text : String) : Sink :=
  { s with content := s.content ++ text.toUTF8 }

theorem extend_empty (s : Sink) : s.extend "" = s := by
  have hnone : s.content ++ "".toUTF8 = s.content := ByteArray.append_empty
  rw [extend, hnone]

theorem extend_append (s : Sink) (a b : String) : s.extend (a ++ b) = (s.extend a).extend b := by
  have happend : (a ++ b).toUTF8 = a.toUTF8 ++ b.toUTF8 := String.toByteArray_append
  rw [extend, extend, extend, happend, ByteArray.append_assoc]

theorem Unlimited.extend {s : Sink} (h : s.Unlimited) (text : String) :
    (s.extend text).Unlimited :=
  ⟨h.room, h.flushes⟩

theorem Unlimited.write {s : Sink} (h : s.Unlimited) (text : String) :
    s.write text = (.ok (), s.extend text) := by
  obtain ⟨room, flushFails, content⟩ := s
  obtain rfl : room = none := h.room
  rfl

theorem Unlimited.writeLine {s : Sink} (h : s.Unlimited) (i : Instruction) :
    writer.writeLine s i = (.ok (), s.extend i.line) := by
  have hwrite (s : Sink) (text : String) : writer.write s text = s.write text := rfl
  rw [Writer.writeLine, hwrite, h.write]
  dsimp only
  rw [hwrite, (h.extend i.text).write, ← extend_append]
  rfl

/-- All records are delivered, and the lines of the instructions among them are written. -/
theorem Unlimited.deliverOnto (rs : List Record) {s : Sink} (h : s.Unlimited)
    (done : List Record) : writer.deliverOnto s rs done =
      (none, done.reverse ++ rs, s.extend (listing (rs.filterMap Record.instruction?))) := by
  induction rs generalizing s done with
  | nil =>
      have hnone : s.extend (listing []) = s := s.extend_empty
      rw [Writer.deliverOnto, List.append_nil, List.filterMap_nil, hnone]
  | cons r rs ih =>
      rw [Writer.deliverOnto]
      cases hr : r.instruction? with
      | none =>
          dsimp only
          rw [ih h, List.filterMap_cons_none hr, List.reverse_cons, List.append_assoc]
          rfl
      | some i =>
          dsimp only
          rw [h.writeLine]
          dsimp only
          rw [ih (h.extend i.line), List.filterMap_cons_some hr, listing_cons, extend_append,
            List.reverse_cons, List.append_assoc]
          rfl

/-- Delivery to a sink that never fails reports what the trail says and adds its listing. -/
theorem Unlimited.deliver {s : Sink} (h : s.Unlimited) (source : String) (t : Trail Record) :
    s.deliver source t =
      (⟨t.outcome source, t.items⟩, s.extend (listing t.instructions.items)) := by
  have hflush (text : String) : writer.flush (s.extend text) = (.ok (), s.extend text) := by
    have hok : (s.extend text).flush = .ok () := by
      rw [flush, if_neg]
      simp [Sink.extend, h.flushes]
    exact congrArg (·, s.extend text) hok
  rw [Sink.deliver, Writer.deliver, h.deliverOnto, Trail.outcome]
  dsimp only
  cases t.fault with
  | some e => rfl
  | none =>
      dsimp only
      rw [hflush]
      rfl

end Sink

end JackCompiler
