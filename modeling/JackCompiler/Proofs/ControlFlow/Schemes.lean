import JackCompiler.Proofs.Delivery.Subroutines
import JackCompiler.Proofs.Output.Lines

/-!
# Numbering schemes

The scheme that numbers conditionals is seen in the numbers of their labels and nowhere else. Under
two schemes a class is stopped by the same complaint or not at all, and what it has written by then
is the same line by line, up to those numbers.

## Implementation notes

The schemes step the counter of conditionals differently, so emitters are compared from counters that
agree on loops only. Stopped code is compared as well as finished code: what a class has written
before a complaint stays in the sink.
-/

namespace JackCompiler

/-- A numbered label belongs to a conditional. -/
def LabelStem.isConditional : LabelStem → Bool
  | ifTrue | ifFalse | ifEnd => true
  | whileStart | whileEnd => false

/-- Two instructions differ at most in the number of a label of a conditional. -/
inductive Instruction.Renumbered : Instruction → Instruction → Prop
  | refl (i : Instruction) : Renumbered i i
  | label {stem : LabelStem} (m n : Nat) : stem.isConditional = true →
      Renumbered (.label (.numbered stem m)) (.label (.numbered stem n))
  | goto {stem : LabelStem} (m n : Nat) : stem.isConditional = true →
      Renumbered (.goto (.numbered stem m)) (.goto (.numbered stem n))
  | ifGoto {stem : LabelStem} (m n : Nat) : stem.isConditional = true →
      Renumbered (.ifGoto (.numbered stem m)) (.ifGoto (.numbered stem n))

/-- Two pieces of code are stopped by the same complaint or not at all, and their instructions differ
at most in the numbers of conditionals. -/
structure Code.Renumbered (a b : Code) : Prop where
  items : List.Forall₂ Instruction.Renumbered a.items b.items
  fault : a.fault = b.fault

namespace Code.Renumbered

variable {a b a' b' : Code}

theorem refl (a : Code) : Code.Renumbered a a :=
  ⟨List.forall₂_same.mpr fun i _ => .refl i, rfl⟩

theorem append (h : Code.Renumbered a b) (h' : Code.Renumbered a' b') :
    Code.Renumbered (a ++ a') (b ++ b') := by
  obtain ⟨xs, e⟩ := a
  obtain ⟨ys, e'⟩ := b
  obtain ⟨hitems, rfl⟩ : List.Forall₂ Instruction.Renumbered xs ys ∧ e = e' := ⟨h.items, h.fault⟩
  cases e with
  | none => exact ⟨List.rel_append hitems h'.items, h'.fault⟩
  | some c => exact ⟨hitems, rfl⟩

/-- Joined pieces differ at most in the numbers of conditionals if each two of them do. -/
theorem join {α : Type} {as : List α} {f g : α → Code} (h : ∀ x ∈ as, Code.Renumbered (f x) (g x)) :
    Code.Renumbered (.join (as.map f)) (.join (as.map g)) := by
  induction as with
  | nil => exact refl _
  | cons x as ih =>
      obtain ⟨hx, has⟩ := List.forall_mem_cons.mp h
      exact hx.append (ih has)

end Code.Renumbered

/-! ## Statements -/

/-- From counters that agree on loops two emitters make code that differs at most in the numbers of
conditionals, and leave counters that agree on loops. -/
def Emitter.Renumbered (a b : Emitter) : Prop :=
  ∀ c d : Counters, c.loops = d.loops →
    Code.Renumbered (a c).1 (b d).1 ∧ (a c).2.loops = (b d).2.loops

namespace Emitter.Renumbered

variable {a b a' b' : Emitter}

theorem ofCode {t t' : Code} (h : Code.Renumbered t t') :
    Renumbered (Emitter.ofCode t) (Emitter.ofCode t') :=
  fun _ _ hloops => ⟨h, hloops⟩

theorem refl (t : Code) : Renumbered (Emitter.ofCode t) (Emitter.ofCode t) :=
  ofCode (.refl t)

theorem append (h : Renumbered a b) (h' : Renumbered a' b') : Renumbered (a ++ a') (b ++ b') := by
  intro c d hloops
  obtain ⟨hcode, hbetween⟩ := h c d hloops
  change Code.Renumbered (a.append a' c).1 (b.append b' d).1 ∧
    (a.append a' c).2.loops = (b.append b' d).2.loops
  unfold Emitter.append
  rcases ha : a c with ⟨⟨xs, e⟩, c'⟩
  rcases hb : b d with ⟨⟨ys, e'⟩, d'⟩
  rw [ha, hb] at hcode hbetween
  obtain ⟨hitems, rfl⟩ : List.Forall₂ Instruction.Renumbered xs ys ∧ e = e' :=
    ⟨hcode.items, hcode.fault⟩
  cases e with
  | some c => exact ⟨hcode, hbetween⟩
  | none =>
      obtain ⟨hrest, hafter⟩ := h' c' d' hbetween
      exact ⟨⟨List.rel_append hitems hrest.items, hrest.fault⟩, hafter⟩

/-- Under the two schemes a conditional may have any two numbers. -/
theorem withIfNumber {body body' : Nat → Emitter} (h : ∀ m n, Renumbered (body m) (body' n)) :
    Renumbered (Emitter.withIfNumber .unique body) (Emitter.withIfNumber .nested body') :=
  fun _ _ hloops => h _ _ _ _ hloops

/-- A loop has the same number under both schemes. -/
theorem withNext_loop {body body' : Nat → Emitter} (h : ∀ n, Renumbered (body n) (body' n)) :
    Renumbered (Emitter.withNext .loop body) (Emitter.withNext .loop body') := by
  intro c d hloops
  have hnumber : c.get .loop = d.get .loop := hloops
  change Code.Renumbered (body (c.get .loop) _).1 _ ∧ (body (c.get .loop) _).2.loops = _
  rw [hnumber]
  exact h _ _ _ (congrArg (· + 1) hloops)

/-- Stepping the counter of conditionals up before a statement and down after it makes no lines. -/
theorem stepped (h : Renumbered a b) :
    Renumbered a (Emitter.increment .conditional ++ (b ++ Emitter.decrement .conditional)) := by
  intro c d hloops
  obtain ⟨hcode, hafter⟩ := h c (d.increment .conditional) hloops
  change Code.Renumbered _ (Emitter.append _ (Emitter.append b _) d).1 ∧
    _ = (Emitter.append _ (Emitter.append b _) d).2.loops
  simp only [Emitter.append, Emitter.increment, Emitter.decrement, Trail.of, List.nil_append]
  revert hcode hafter
  rcases b (d.increment .conditional) with ⟨⟨ys, _ | e⟩, d'⟩
  · intro hcode hafter
    simpa using ⟨hcode, hafter⟩
  · exact fun hcode hafter => ⟨hcode, hafter⟩

theorem inBranch (p : OperatorOrder) (s : Stmt) (h : Renumbered a b) :
    Renumbered (Emitter.inBranch ⟨.unique, p⟩ s a) (Emitter.inBranch ⟨.nested, p⟩ s b) := by
  cases s with
  | branch => exact h.stepped
  | assign | loop | call | ret => exact h

end Emitter.Renumbered

open Emitter.Renumbered

variable (p : OperatorOrder) (f : Frame)

theorem emit_renumbered {stem : LabelStem} (h : stem.isConditional = true) (m n : Nat) :
    Emitter.Renumbered (.emit [.label (.numbered stem m)]) (.emit [.label (.numbered stem n)]) :=
  .ofCode ⟨.cons (.label m n h) .nil, rfl⟩

mutual

/-- Under the two schemes the code of a statement differs at most in the numbers of conditionals. -/
theorem Stmt.emit_schemes :
    (s : Stmt) → Emitter.Renumbered (s.emit ⟨.unique, p⟩ f) (s.emit ⟨.nested, p⟩ f)
  | .assign target index value => by
      rw [Stmt.emit, Stmt.emit]
      exact .refl _
  | .branch cond yes none => by
      rw [Stmt.emit, Stmt.emit]
      refine withIfNumber fun m n => (refl _).append (append (ofCode ⟨?_, rfl⟩)
        ((emitBranch_schemes yes).append (emit_renumbered rfl m n)))
      exact .cons (.ifGoto m n rfl) (.cons (.goto m n rfl) (.cons (.label m n rfl) .nil))
  | .branch cond yes (some no) => by
      rw [Stmt.emit, Stmt.emit]
      refine withIfNumber fun m n => (refl _).append (append (ofCode ⟨?_, rfl⟩)
        ((emitBranch_schemes yes).append (append (ofCode ⟨?_, rfl⟩)
          ((emitBranch_schemes no).append (emit_renumbered rfl m n)))))
      · exact .cons (.ifGoto m n rfl) (.cons (.goto m n rfl) (.cons (.label m n rfl) .nil))
      · exact .cons (.goto m n rfl) (.cons (.label m n rfl) .nil)
  | .loop cond body => by
      rw [Stmt.emit, Stmt.emit]
      exact withNext_loop fun n => (refl _).append ((refl _).append ((refl _).append
        ((emitBlock_schemes body).append (refl _))))
  | .call c => by
      rw [Stmt.emit, Stmt.emit]
      exact .refl _
  | .ret value => by
      rw [Stmt.emit, Stmt.emit]
      exact .refl _
termination_by structural s => s

theorem emitBlock_schemes :
    (ss : List Stmt) → Emitter.Renumbered (emitBlock ⟨.unique, p⟩ f ss) (emitBlock ⟨.nested, p⟩ f ss)
  | [] => .refl _
  | s :: ss => s.emit_schemes.append (emitBlock_schemes ss)
termination_by structural ss => ss

theorem emitBranch_schemes : (ss : List Stmt) →
    Emitter.Renumbered (emitBranch ⟨.unique, p⟩ f ss) (emitBranch ⟨.nested, p⟩ f ss)
  | [] => .refl _
  | s :: ss => (s.emit_schemes.inBranch p s).append (emitBranch_schemes ss)
termination_by structural ss => ss

end

/-! ## Classes -/

/-- Under the two schemes a class is stopped by the same complaint or not at all, and its instructions
differ at most in the numbers of conditionals. -/
theorem ClassTree.output_schemes (c : ClassTree) :
    Code.Renumbered (c.output ⟨.unique, p⟩) (c.output ⟨.nested, p⟩) := by
  rw [output_eq, output_eq]
  refine (Code.Renumbered.refl _).append (.join fun s _ => ?_)
  have hbody : Code.Renumbered (c.bodyCode ⟨.unique, p⟩ s) (c.bodyCode ⟨.nested, p⟩ s) :=
    (emitBlock_schemes p (c.frame s) s.body.block .zero .zero rfl).1
  exact (Code.Renumbered.refl _).append ((Code.Renumbered.refl _).append hbody)

/-! ## Lines -/

/-- Two lines are the same up to the number of a label of a conditional. -/
inductive SameButNumber : List Char → List Char → Prop
  | refl (line : List Char) : SameButNumber line line
  | number {word : String} {stem : LabelStem} (m n : Nat) :
      word ∈ ["label ", "goto ", "if-goto "] → stem.isConditional = true →
      SameButNumber (word ++ (stem.text ++ toString m)).toList
        (word ++ (stem.text ++ toString n)).toList

theorem newline_notMem_labelled {word : String} (hword : word ∈ ["label ", "goto ", "if-goto "])
    (stem : LabelStem) (n : Nat) : '\n' ∉ (word ++ (stem.text ++ toString n)).toList := by
  have hlabel := IsSolid.label stem n
  have hwords : ∀ w ∈ ["label ", "goto ", "if-goto "], '\n' ∉ w.toList := by decide
  rw [String.toList_append, List.mem_append]
  rintro (h | h)
  · exact hwords word hword h
  · exact (hlabel _ h).2 rfl

/-- The text of an instruction may have several lines, as names may hold line feeds. -/
theorem Instruction.Renumbered.lines {i j : Instruction} (h : i.Renumbered j) :
    List.Forall₂ SameButNumber (textLines i.text) (textLines j.text) := by
  have hline (word : String) (hword : word ∈ ["label ", "goto ", "if-goto "]) {stem : LabelStem}
      (hstem : stem.isConditional = true) (m n : Nat) :
      List.Forall₂ SameButNumber (textLines (word ++ (stem.text ++ toString m)))
        (textLines (word ++ (stem.text ++ toString n))) := by
    rw [textLines, textLines, List.splitOn_eq_singleton (newline_notMem_labelled hword stem m),
      List.splitOn_eq_singleton (newline_notMem_labelled hword stem n)]
    exact .cons (.number m n hword hstem) .nil
  cases h with
  | refl => exact List.forall₂_same.mpr fun line _ => .refl line
  | label m n hstem => exact hline "label " (by decide) hstem m n
  | goto m n hstem => exact hline "goto " (by decide) hstem m n
  | ifGoto m n hstem => exact hline "if-goto " (by decide) hstem m n

/-- Listings whose instructions differ at most in the numbers of conditionals are the same line by
line up to those numbers. -/
theorem textLines_renumbered {xs ys : List Instruction}
    (h : List.Forall₂ Instruction.Renumbered xs ys) :
    List.Forall₂ SameButNumber (textLines (listing xs)) (textLines (listing ys)) := by
  induction h with
  | nil => exact List.forall₂_same.mpr fun line _ => .refl line
  | cons hij _ ih =>
      rw [textLines_listing_cons, textLines_listing_cons]
      exact List.rel_append hij.lines ih

namespace Compiler

/-- The scheme that numbers conditionals changes the numbers of their labels and nothing else. Into
any sink that never fails, and whatever was compiled before, a class is compiled with the same outcome
under both schemes, and what it writes, up to a complaint if there is one, is the same line by line
but for those numbers. -/
theorem compile_schemes (source : String) (p : OperatorOrder) (g g' : Generator) {sink : Sink}
    (h : sink.Unlimited) (t : ClassTree) :
    let unique : Compiler := ⟨source, ⟨.unique, p⟩, g, sink⟩
    let nested : Compiler := ⟨source, ⟨.nested, p⟩, g', sink⟩
    (unique.compile t).1.outcome = (nested.compile t).1.outcome ∧
      ∃ a b, (unique.compile t).2.sink = sink.extend a ∧ (nested.compile t).2.sink = sink.extend b ∧
        List.Forall₂ SameButNumber (textLines a) (textLines b) := by
  intro unique nested
  have hcode := t.output_schemes p
  have hu : unique.sink.Unlimited := h
  have hn : nested.sink.Unlimited := h
  refine ⟨?_, _, _, compile_sink hu t, compile_sink hn t, textLines_renumbered hcode.items⟩
  rw [compile_outcome hu, compile_outcome hn, Trail.outcome, Trail.outcome, hcode.fault]

end Compiler

/-- A class with a conditional that has others in both of its branches, and with one more in a loop
behind it, around given statements. -/
def siblingClass (last : List Stmt) : ClassTree :=
  let always : Expr := .operand [] (.word .true)
  { name := ⟨"Main", ⟨0, 4⟩⟩
    vars := []
    subroutines := [
      { kind := .function
        returns := none
        name := ⟨"main", ⟨0, 4⟩⟩
        parameters := []
        body := ⟨[], [
          .branch always [.branch always [] none] (some [.branch always [] none]),
          .loop always [.branch always last none],
          .ret none]⟩ }] }

/-- The class is stopped in its last conditional, which has another number under each scheme. -/
theorem siblingClass_schemes :
    let sink : Sink := .empty none false
    let t := siblingClass [strayStmt]
    let unique : Compiler := ⟨"", ⟨.unique, .deferred⟩, .new, sink⟩
    let nested : Compiler := ⟨"", ⟨.nested, .deferred⟩, .new, sink⟩
    sink.Unlimited ∧ (t.output unique.options).fault.isSome ∧
      (t.output unique.options).items ≠ (t.output nested.options).items ∧
      (unique.compile t).1.outcome = (nested.compile t).1.outcome ∧
      ∃ a b, (unique.compile t).2.sink = sink.extend a ∧ (nested.compile t).2.sink = sink.extend b ∧
        List.Forall₂ SameButNumber (textLines a) (textLines b) := by
  refine ⟨⟨rfl, rfl⟩, by decide, by decide, ?_⟩
  exact Compiler.compile_schemes "" .deferred .new .new ⟨rfl, rfl⟩ _

end JackCompiler
