import JackCompiler.Proofs.ControlFlow.Simulation
import JackCompiler.Proofs.Output.Induction
import Mathlib.Data.List.Nodup

/-!
# Numbers of conditionals and loops

The numbered statements of a kind are numbered from zero in source order, however they are nested:
each one has as its number how many of its kind begin before it. In the listing of a function the
first labels of these statements therefore carry the numbers in order, and the others carry each of
them once. For loops this holds under both numberings, for conditionals under unique numbering.

Every jump of a function has its label there. Under unique numbering there is only one label of that
name.

## Implementation notes

Source order is the order of `Stmt.all`: a statement comes before those inside it.
-/

namespace JackCompiler

open Emitter

/-! ## Numbers in a listing -/

/-- A statement takes its number from a counter. -/
def Numbered.counts (k : Numbered) (s : Stmt) : Bool :=
  s.numbered? == some k

/-- The place of a numbered statement whose label comes before any statement inside it. -/
def Numbered.first : Numbered → LabelStem
  | conditional => .ifTrue
  | loop => .whileStart

/-- The place of a numbered statement where a condition that does not hold leads to. -/
def Numbered.second : Numbered → LabelStem
  | conditional => .ifFalse
  | loop => .whileEnd

/-- The number of a label with a given stem. -/
def Label.number? (stem : LabelStem) : Label → Option Nat
  | numbered stem' n => if stem' = stem then some n else none
  | named _ => none

/-- The numbers of the labels with a given stem, in the order of the listing. -/
def numbersOf (stem : LabelStem) (code : List Instruction) : List Nat :=
  (labels code).filterMap (Label.number? stem)

theorem numbersOf_append (stem : LabelStem) (xs ys : List Instruction) :
    numbersOf stem (xs ++ ys) = numbersOf stem xs ++ numbersOf stem ys := by
  rw [numbersOf, labels_append, List.filterMap_append]
  rfl

theorem numbersOf_eq_nil {code : List Instruction} (h : labels code = []) (stem : LabelStem) :
    numbersOf stem code = [] := by
  rw [numbersOf, h, List.filterMap_nil]

theorem mem_numbersOf {stem : LabelStem} {n : Nat} {code : List Instruction} :
    n ∈ numbersOf stem code ↔ .numbered stem n ∈ labels code := by
  rw [numbersOf, List.mem_filterMap]
  constructor
  · rintro ⟨l, hl, hn⟩
    cases l with
    | named name => cases hn
    | numbered stem' m =>
        rw [Label.number?] at hn
        split at hn
        · next heq =>
          cases hn
          exact heq ▸ hl
        · cases hn
  · intro h
    exact ⟨_, h, if_pos rfl⟩

/-- The labels and the jumps of a numbered statement with a given number stand around the code of
its condition and of the statements inside it. -/
inductive Stmt.NumberedAs (order : OperatorOrder) (f : Frame) (n : Nat) :
    Stmt → List Instruction → Prop
  | branch {cond : Expr} {yes : List Stmt} (ys : List Instruction) :
      NumberedAs order f n (.branch cond yes none) (branchLines n (cond.code order f).items ys)
  | branchElse {cond : Expr} {yes no : List Stmt} (ys zs : List Instruction) :
      NumberedAs order f n (.branch cond yes (some no))
        (branchElseLines n (cond.code order f).items ys zs)
  | loop {cond : Expr} {body : List Stmt} (ys : List Instruction) :
      NumberedAs order f n (.loop cond body) (loopLines n (cond.code order f).items ys)

/-- Each numbered statement of a kind is compiled in a piece of the code, with a first number and
then how many of its kind begin before it as its number. -/
def NumberedFrom (order : OperatorOrder) (f : Frame) (k : Numbered) (first : Nat)
    (ss : List Stmt) (code : List Instruction) : Prop :=
  ∀ before x after, ss = before ++ x :: after → k.counts x = true →
    ∃ xs, x.NumberedAs order f (first + before.countP k.counts) xs ∧ xs <:+: code

namespace NumberedFrom

variable {order : OperatorOrder} {f : Frame} {k : Numbered} {n : Nat} {ss ts : List Stmt}
  {xs ys code : List Instruction}

theorem nil : NumberedFrom order f k n [] code := by
  intro before x after h
  exact absurd h (by simp)

theorem mono (h : NumberedFrom order f k n ss xs) (hxy : xs <:+: ys) :
    NumberedFrom order f k n ss ys := by
  intro before x after hss hx
  obtain ⟨zs, hzs, hin⟩ := h before x after hss hx
  exact ⟨zs, hzs, hin.trans hxy⟩

theorem append (h : NumberedFrom order f k n ss code)
    (h' : NumberedFrom order f k (n + ss.countP k.counts) ts code) :
    NumberedFrom order f k n (ss ++ ts) code := by
  intro before x after hsplit hx
  rcases List.append_eq_append_iff.mp hsplit with ⟨rest, rfl, hts⟩ | ⟨rest, hss, hrest⟩
  · obtain ⟨zs, hzs, hin⟩ := h' rest x after hts hx
    rw [Nat.add_assoc, ← List.countP_append] at hzs
    exact ⟨zs, hzs, hin⟩
  · cases rest with
    | nil =>
        obtain rfl : ss = before := by simpa using hss
        obtain ⟨zs, hzs, hin⟩ := h' [] x after hrest.symm hx
        exact ⟨zs, hzs, hin⟩
    | cons y rest =>
        obtain ⟨rfl, -⟩ := List.cons.inj hrest
        exact h before x rest hss hx

theorem cons {s : Stmt} (hs : k.counts s = true → s.NumberedAs order f n code)
    (h : NumberedFrom order f k (n + [s].countP k.counts) ss code) :
    NumberedFrom order f k n (s :: ss) code := by
  have hone : NumberedFrom order f k n [s] code := by
    intro before x after hsplit hx
    cases before with
    | nil =>
        obtain ⟨rfl, -⟩ := List.cons.inj hsplit
        exact ⟨code, hs hx, List.infix_rfl⟩
    | cons y before => simp at hsplit
  exact hone.append h

end NumberedFrom

/-- Code in which the statements of a kind are numbered in source order, from the counter before
them to the counter after them. -/
structure NumbersInOrder (order : OperatorOrder) (f : Frame) (k : Numbered) (ss : List Stmt)
    (c : Counters) (code : List Instruction) (c' : Counters) : Prop where
  counter : c'.get k = c.get k + ss.countP k.counts
  firsts : numbersOf k.first code = List.range' (c.get k) (ss.countP k.counts)
  seconds : (numbersOf k.second code).Perm (List.range' (c.get k) (ss.countP k.counts))
  placed : NumberedFrom order f k (c.get k) ss code

namespace NumbersInOrder

variable {order : OperatorOrder} {f : Frame} {k : Numbered} {c d c' : Counters}
  {ss ts : List Stmt} {xs ys code : List Instruction}

theorem nil (c : Counters) : NumbersInOrder order f k [] c [] c :=
  ⟨rfl, rfl, .nil, .nil⟩

theorem append (h : NumbersInOrder order f k ss c xs d) (h' : NumbersInOrder order f k ts d ys c') :
    NumbersInOrder order f k (ss ++ ts) c (xs ++ ys) c' := by
  have hrange : List.range' (c.get k) ((ss ++ ts).countP k.counts) =
      List.range' (c.get k) (ss.countP k.counts) ++
        List.range' (d.get k) (ts.countP k.counts) := by
    rw [h.counter, List.range'_append_1, List.countP_append]
  refine ⟨?_, ?_, ?_, ?_⟩
  · rw [h'.counter, h.counter, List.countP_append, Nat.add_assoc]
  · rw [numbersOf_append, h.firsts, h'.firsts, hrange]
  · rw [numbersOf_append, hrange]
    exact h.seconds.append h'.seconds
  · refine (h.placed.mono List.infix_append_left).append ?_
    rw [← h.counter]
    exact h'.placed.mono List.infix_append_right

/-- A statement that takes no number has no label of the kind. -/
theorem plain {s : Stmt} (hs : k.counts s = false) (hcode : labels code = []) (c : Counters) :
    NumbersInOrder order f k [s] c code c := by
  have hcount : [s].countP k.counts = 0 := by simp [hs]
  refine ⟨?_, ?_, ?_, ?_⟩
  · rw [hcount, Nat.add_zero]
  · rw [numbersOf_eq_nil hcode, hcount, List.range'_zero]
  · rw [numbersOf_eq_nil hcode, hcount, List.range'_zero]
  · exact .cons (fun h => absurd h (by simp [hs])) .nil

/-- Only the value of the counter matters. -/
theorem congr {b b' : Counters} (h : NumbersInOrder order f k ss c code c')
    (hc : b.get k = c.get k) (hc' : b'.get k = c'.get k) :
    NumbersInOrder order f k ss b code b' := by
  obtain ⟨hcounter, hfirsts, hseconds, hplaced⟩ := h
  rw [← hc] at hfirsts hseconds hplaced
  exact ⟨by rw [hc', hc, hcounter], hfirsts, hseconds, hplaced⟩

/-- A statement around numbered ones takes its own number, if any, before they take theirs. -/
theorem around {s : Stmt} (h : NumbersInOrder order f k ss d ys c')
    (hd : d.get k = c.get k + [s].countP k.counts)
    (hfirsts : numbersOf k.first code =
      List.range' (c.get k) ([s].countP k.counts) ++ numbersOf k.first ys)
    (hseconds : (numbersOf k.second code).Perm
      (List.range' (c.get k) ([s].countP k.counts) ++ numbersOf k.second ys))
    (hs : k.counts s = true → s.NumberedAs order f (c.get k) code)
    (hplaced : NumberedFrom order f k (d.get k) ss code) :
    NumbersInOrder order f k (s :: ss) c code c' := by
  have hcount : (s :: ss).countP k.counts = [s].countP k.counts + ss.countP k.counts := by
    rw [← List.countP_append]
    rfl
  have hrange : List.range' (c.get k) ((s :: ss).countP k.counts) =
      List.range' (c.get k) ([s].countP k.counts) ++
        List.range' (d.get k) (ss.countP k.counts) := by
    rw [hd, List.range'_append_1, hcount]
  refine ⟨?_, ?_, ?_, ?_⟩
  · rw [h.counter, hd, hcount, Nat.add_assoc]
  · rw [hfirsts, h.firsts, hrange]
  · rw [hrange]
    exact hseconds.trans (h.seconds.append_left _)
  · rw [hd] at hplaced
    exact .cons hs hplaced

end NumbersInOrder

/-! ## Numbers in source order -/

theorem Counters.get_increment (c : Counters) (k l : Numbered) :
    (c.increment k).get l = c.get l + if k = l then 1 else 0 := by
  rw [increment, get_update]
  split <;> rfl

theorem Counters.get_decrement_of_ne (c : Counters) {k l : Numbered} (h : k ≠ l) :
    (c.decrement k).get l = c.get l := by
  rw [decrement, get_update, if_neg h]

section

variable {o : Options} {k : Numbered} (hk : o.ifNumbering = .unique ∨ k = .loop) (f : Frame)

include hk

/-- A conditional steps the counter of its kind before the statements inside it. -/
theorem Counters.get_insideIf (c : Counters) (cond : Expr) (yes : List Stmt)
    (no : Option (List Stmt)) : (c.insideIf o.ifNumbering).get k =
      c.get k + [Stmt.branch cond yes no].countP k.counts := by
  cases k with
  | conditional =>
      obtain ho | h := hk
      · simp [insideIf, ho, get_increment, Numbered.counts, Stmt.numbered?]
      · cases h
  | loop =>
      cases o.ifNumbering <;>
        simp [insideIf, get_increment, Numbered.counts, Stmt.numbered?]

/-- Numbers are given in source order: to loops always, to conditionals under unique numbering. -/
theorem numbersInOrder_invariant : EmissionInvariant o f fun ss c code c' =>
    NumbersInOrder o.operatorOrder f k ss c code c' where
  nil := .nil
  append := .append
  plain := by
    intro s c code hs hcode
    exact .plain (by simp [Numbered.counts, hs]) (Stmt.plain_labels hs hcode) c
  branch := by
    intro cond yes c c' ys code hcode _ _ h
    have hlabels := labels_branchLines cond o.operatorOrder f c.conditionals ys
    have hinside := Counters.get_insideIf hk c cond yes none
    subst hcode
    refine h.around hinside ?_ ?_ ?_ (h.placed.mono (infix_branchLines _ _ _))
    · cases k <;> simp [numbersOf, hlabels, Label.number?, Numbered.first, Numbered.counts,
        Stmt.numbered?, Counters.get]
    · cases k <;> simp [numbersOf, hlabels, Label.number?, Numbered.second, Numbered.counts,
        Stmt.numbered?, Counters.get, List.perm_append_singleton]
    · cases k with
      | conditional => exact fun _ => .branch ys
      | loop => simp [Numbered.counts, Stmt.numbered?]
  branchElse := by
    intro cond yes no c d c' ys zs code hcode _ _ h h'
    have hlabels := labels_branchElseLines cond o.operatorOrder f c.conditionals ys zs
    have hinside := Counters.get_insideIf hk c cond yes (some no)
    have hpieces := infix_branchElseLines c.conditionals
      (cond.code o.operatorOrder f).items ys zs
    subst hcode
    refine (h.append h').around hinside ?_ ?_ ?_ ?_
    · cases k <;> simp [numbersOf, labels_append, hlabels, Label.number?, Numbered.first,
        Numbered.counts, Stmt.numbered?, Counters.get]
    · cases k <;> simp [numbersOf, labels_append, hlabels, Label.number?, Numbered.second,
        Numbered.counts, Stmt.numbered?, Counters.get, List.perm_middle]
    · cases k with
      | conditional => exact fun _ => .branchElse ys zs
      | loop => simp [Numbered.counts, Stmt.numbered?]
    · refine (h.placed.mono hpieces.1).append ?_
      rw [← h.counter]
      exact h'.placed.mono hpieces.2
  loop := by
    intro cond body c c' ys code hcode _ _ h
    have hlabels := labels_loopLines cond o.operatorOrder f c.loops ys
    have hinside : (c.increment .loop).get k =
        c.get k + [Stmt.loop cond body].countP k.counts := by
      cases k <;> simp [Counters.get_increment, Numbered.counts, Stmt.numbered?]
    subst hcode
    refine h.around hinside ?_ ?_ ?_ (h.placed.mono (infix_loopLines _ _ _))
    · cases k <;> simp [numbersOf, hlabels, Label.number?, Numbered.first, Numbered.counts,
        Stmt.numbered?, Counters.get]
    · cases k <;> simp [numbersOf, hlabels, Label.number?, Numbered.second, Numbered.counts,
        Stmt.numbered?, Counters.get, List.perm_append_singleton]
    · cases k with
      | conditional => simp [Numbered.counts, Stmt.numbered?]
      | loop => exact fun _ => .loop ys
  shift := by
    intro ss c code d hnested h
    have hne : Numbered.conditional ≠ k := by
      rintro rfl
      obtain ho | h := hk
      · cases ho.symm.trans hnested
      · cases h
    refine h.congr ?_ (Counters.get_decrement_of_ne d hne)
    simp [Counters.get_increment, hne]

end

/-! ## Functions -/

/-- The labels of a function number the statements of a kind in source order, from zero and without
gaps. -/
structure LabelsNumber (order : OperatorOrder) (f : Frame) (k : Numbered) (ss : List Stmt)
    (fn : List Instruction) : Prop where
  firsts : numbersOf k.first fn = List.range (ss.countP k.counts)
  seconds : (numbersOf k.second fn).Perm (List.range (ss.countP k.counts))
  bounded : ∀ stem n, stem.counter = k → .numbered stem n ∈ labels fn → n < ss.countP k.counts
  placed : NumberedFrom order f k 0 ss fn

/-- The labels and jumps of the function of a subroutine. -/
structure ClassTree.Labelled (o : Options) (c : ClassTree) (s : Subroutine)
    (fn : List Instruction) : Prop where
  numbered : ∀ l ∈ labels fn, ∃ stem n, l = .numbered stem n
  loops : LabelsNumber o.operatorOrder (c.frame s) .loop s.stmts fn
  conditionals : o.ifNumbering = .unique →
    LabelsNumber o.operatorOrder (c.frame s) .conditional s.stmts fn
  distinct : o.ifNumbering = .unique → DistinctLabels fn
  closed : ∀ l ∈ jumps fn, l ∈ labels fn
  targets : o.ifNumbering = .unique → ∀ l ∈ jumps fn,
    ((labels fn).map Label.text).count l.text = 1

namespace ClassTree

variable {o : Options} {c : ClassTree} {s : Subroutine}

/-- The numbers of a kind in a finished function, given that the kind is numbered in order. -/
theorem labelsNumber {k : Numbered} (hk : o.ifNumbering = .unique ∨ k = .loop)
    (h : (c.bodyCode o s).fault = none) :
    LabelsNumber o.operatorOrder (c.frame s) k s.stmts
      (c.opening s ++ (c.bodyCode o s).items) := by
  have hbody := bodyCode_emits h
  obtain ⟨hcounter, hfirsts, hseconds, hplaced⟩ := (numbersInOrder_invariant hk _).block _ hbody
  have hzero : Counters.zero.get k = 0 := by cases k <;> rfl
  rw [hzero, ← List.range_eq_range'] at hfirsts hseconds
  rw [hzero] at hcounter hplaced
  refine ⟨?_, ?_, fun stem n hstem hn => ?_, hplaced.mono List.infix_append_right⟩
  · rw [numbersOf, labels_function]
    exact hfirsts
  · rw [numbersOf, labels_function]
    exact hseconds
  rw [labels_function] at hn
  obtain ho | rfl := hk
  · obtain ⟨stem', n', heq, -, hlt⟩ := ((labelsBetween_invariant ho _).block _ hbody).between _ hn
    cases heq
    rw [hstem, hcounter, Nat.zero_add] at hlt
    exact hlt
  · -- The labels of a loop are its first and its second one.
    cases stem with
    | whileStart => exact List.mem_range.mp (hfirsts ▸ mem_numbersOf.mpr hn)
    | whileEnd => exact List.mem_range.mp (hseconds.mem_iff.mp (mem_numbersOf.mpr hn))
    | _ => cases hstem

/-- In a class that compiles every jump has its label in the same function, and loops are numbered
from zero in source order. With a number of its own for every conditional, no label occurs twice, a
jump has just one label, and conditionals are numbered as loops are. -/
theorem functions_labelled (o : Options) (c : ClassTree) (hc : (c.output o).fault = none) :
    List.Forall₂ (c.Labelled o) c.subroutines (functions (c.output o).items) := by
  rw [functions_output hc, List.forall₂_map_right_iff, List.forall₂_same]
  intro s hs
  have hfault := (output_finished hc).2 s hs
  have hjumps : ∀ l ∈ jumps (c.opening s ++ (c.bodyCode o s).items),
      l ∈ labels (c.opening s ++ (c.bodyCode o s).items) := by
    rw [jumps_function, labels_function]
    exact (jumps_invariant o _).block _ (bodyCode_emits hfault)
  refine ⟨fun l hl => ?_, labelsNumber (.inr rfl) hfault, fun ho => labelsNumber (.inl ho) hfault,
    fun ho => distinctLabels ho hfault, hjumps, fun ho l hl => ?_⟩
  · rw [labels_function] at hl
    exact emitBlock_labels_numbered hl
  · exact List.count_eq_one_of_mem (distinctLabels ho hfault) (List.mem_map_of_mem (hjumps l hl))

end ClassTree

/-- A class with one function: a conditional with two branches that has a loop in its first branch
and a conditional in its second, and a conditional inside the loop. -/
def crossing : ClassTree :=
  let x : Name := ⟨"x", ⟨0, 1⟩⟩
  let read : Expr := .operand [] (.variable x)
  { name := ⟨"Main", ⟨0, 4⟩⟩
    vars := []
    subroutines := [
      { kind := .function
        returns := none
        name := ⟨"main", ⟨0, 4⟩⟩
        parameters := [⟨.boolean, x⟩]
        body := ⟨[], [
          .branch read
            [.loop read [.branch read [.ret none] none, .loop read []]]
            (some [.branch read [] none]),
          .ret none]⟩ }] }

theorem crossing_labelled :
    (crossing.output .standard).fault = none ∧
      (functions (crossing.output .standard).items).map (fun fn =>
        (numbersOf .ifTrue fn, numbersOf .ifFalse fn, numbersOf .ifEnd fn, numbersOf .whileStart fn,
          numbersOf .whileEnd fn)) = [([0, 1, 2], [1, 0, 2], [0], [0, 1], [1, 0])] ∧
      List.Forall₂ (crossing.Labelled .standard) crossing.subroutines
        (functions (crossing.output .standard).items) :=
  ⟨by decide, by decide, ClassTree.functions_labelled .standard crossing (by decide)⟩

end JackCompiler
