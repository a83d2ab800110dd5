import JackCompiler.Proofs.ControlFlow.Simulation
import JackCompiler.Proofs.Output.Pieces
import JackCompiler.Proofs.Stack.Expressions

/-!
# Statements and the stack

Between statements the stack of a function is empty: every statement, however deep it is nested,
begins and ends at depth zero. So control goes from place to place at depth zero, and a return finds
its value and nothing else.

## Implementation notes

The walk follows the listing, not the jumps. What stands behind a return is walked from an empty
stack, as it is entered by a jump if at all.
-/

namespace JackCompiler

open Emitter

variable {o : Options} {f : Frame}

/-! ## Code between statements -/

/-- A statement without statements inside begins and ends with an empty stack. -/
theorem Stmt.plain_settled {s : Stmt} (hs : s.numbered? = none) {c c' : Counters}
    {code : List Instruction} (h : (s.emit o f).Emits c code c') :
    settledAfter? 0 code = some 0 := by
  cases s with
  | assign target index value =>
      obtain ⟨hfault, rfl, -⟩ := emits_assign h
      have hmoves : (assignCode o.operatorOrder f target index value).Moves 0 0 := by
        refine Code.Moves.withCell fun segment n => ?_
        have hvalue := value.code_moves f o.operatorOrder
        cases index with
        | none => exact hvalue.append (.pop _ _ 0)
        | some i =>
            have haddress : Code.Moves 1 1 (.of [.push segment n, .command .add]) :=
              .cons (.push _ _ 1) (.one rfl 0)
            have hstore : Code.Moves 2 0
                (.of [.pop .temp 0, .pop .pointer 1, .push .temp 0, .pop .that 0]) :=
              .cons (.pop _ _ 1) (.cons (.pop _ _ 0) (.cons (.push _ _ 0) (.pop _ _ 0)))
            exact (i.code_moves f o.operatorOrder).append
              (haddress.append ((hvalue.above 1).append hstore))
      exact hmoves hfault 0
  | call call =>
      obtain ⟨hfault, rfl, -⟩ := emits_call h
      exact ((call.code_moves f o.operatorOrder).append (.pop _ _ 0)) hfault 0
  | ret value =>
      obtain ⟨hfault, rfl, -⟩ := emits_ret h
      cases value with
      | none => rfl
      | some v =>
          have hv := (Trail.fault_append_eq_none_iff.mp hfault).1
          rw [returnCode, Trail.items_append hv]
          exact settledAfter?_append_iff.mpr ⟨1, v.code_moves f o.operatorOrder hv 0, rfl⟩
  | branch | loop => cases hs

theorem Stmt.plain_ne_nil {s : Stmt} (hs : s.numbered? = none) {c c' : Counters}
    {code : List Instruction} (h : (s.emit o f).Emits c code c') : code ≠ [] := by
  cases s with
  | assign target index value =>
      obtain ⟨hfault, rfl, -⟩ := emits_assign h
      exact assignCode_ne_nil hfault
  | call call =>
      obtain ⟨hfault, rfl, -⟩ := emits_call h
      rw [Trail.items_append (Trail.fault_append_eq_none_iff.mp hfault).1]
      simp [Trail.of]
  | ret value =>
      obtain ⟨hfault, rfl, -⟩ := emits_ret h
      obtain ⟨is, his, -⟩ := returnCode_finished hfault
      simp [his]
  | branch | loop => cases hs

/-- A statement is emitted at a place of a listing, with an empty stack before it and after it. -/
def RestsAt (o : Options) (f : Frame) (code : List Instruction) (s : Stmt) (start : Nat) : Prop :=
  ∃ pre xs post c c', code = pre ++ (xs ++ post) ∧ pre.length = start ∧ xs ≠ [] ∧
    (s.emit o f).Emits c xs c' ∧ depthAfter? 0 pre = some 0 ∧ depthAfter? 0 (pre ++ xs) = some 0

theorem RestsAt.lt_length {code : List Instruction} {s : Stmt} {start : Nat}
    (h : RestsAt o f code s start) : start < code.length := by
  obtain ⟨pre, xs, post, c, c', rfl, rfl, hne, -⟩ := h
  have hpos := List.length_pos_of_ne_nil hne
  simp only [List.length_append]
  omega

/-- A place in a part of a listing is one in the listing, if the walk comes to the part with an empty
stack. -/
theorem RestsAt.within {xs : List Instruction} {s : Stmt} {start : Nat}
    (h : RestsAt o f xs s start) {before : List Instruction}
    (hbefore : depthAfter? 0 before = some 0) (after : List Instruction) :
    RestsAt o f (before ++ (xs ++ after)) s (before.length + start) := by
  obtain ⟨pre, ys, post, c, c', rfl, rfl, hne, hemits, hpre, hys⟩ := h
  refine ⟨before ++ pre, ys, post ++ after, c, c', by simp, by simp, hne, hemits, ?_, ?_⟩
  · exact depthAfter?_append_iff.mpr ⟨0, hbefore, hpre⟩
  · rw [List.append_assoc]
    exact depthAfter?_append_iff.mpr ⟨0, hbefore, hys⟩

/-- Statements stand in a listing at places of their own, in order, with an empty stack before and
after each of them. -/
def RestIn (o : Options) (f : Frame) (code : List Instruction) (ss : List Stmt) : Prop :=
  ∃ places : List (Stmt × Nat), places.map Prod.fst = ss ∧ places.Pairwise (·.2 < ·.2) ∧
    ∀ p ∈ places, RestsAt o f code p.1 p.2

namespace RestIn

variable {ss ts : List Stmt} {xs ys : List Instruction}

theorem nil (code : List Instruction) : RestIn o f code [] :=
  ⟨[], rfl, .nil, fun _ h => absurd h List.not_mem_nil⟩

theorem append (hxs : depthAfter? 0 xs = some 0) (hss : RestIn o f xs ss)
    (hts : RestIn o f ys ts) : RestIn o f (xs ++ ys) (ss ++ ts) := by
  obtain ⟨places, rfl, horder, hplaces⟩ := hss
  obtain ⟨places', rfl, horder', hplaces'⟩ := hts
  refine ⟨places ++ places'.map fun p => (p.1, xs.length + p.2), ?_, ?_, ?_⟩
  · simp [Function.comp_def]
  · refine List.pairwise_append.mpr ⟨horder, ?_, ?_⟩
    · exact horder'.map _ fun p q h => Nat.add_lt_add_left h _
    · intro p hp q hq
      obtain ⟨q, -, rfl⟩ := List.mem_map.mp hq
      exact Nat.lt_add_right q.2 (hplaces p hp).lt_length
  · refine List.forall_mem_append.mpr ⟨fun p hp => ?_, fun p hp => ?_⟩
    · have hempty : depthAfter? 0 [] = some 0 := rfl
      simpa using (hplaces p hp).within hempty ys
    · obtain ⟨q, hq, rfl⟩ := List.mem_map.mp hp
      simpa using (hplaces' q hq).within hxs []

/-- A statement begins before those inside it. -/
theorem cons {s : Stmt} {c c' : Counters} (hs : (s.emit o f).Emits c (xs ++ ys) c') (hne : xs ≠ [])
    (hxs : depthAfter? 0 xs = some 0) (hys : depthAfter? 0 ys = some 0)
    (hss : RestIn o f ys ss) : RestIn o f (xs ++ ys) (s :: ss) := by
  obtain ⟨places, rfl, horder, hplaces⟩ := hss
  refine ⟨(s, 0) :: places.map fun p => (p.1, xs.length + p.2), ?_, ?_, ?_⟩
  · simp [Function.comp_def]
  · refine List.pairwise_cons.mpr ⟨fun q hq => ?_, ?_⟩
    · obtain ⟨q, -, rfl⟩ := List.mem_map.mp hq
      exact Nat.lt_add_right q.2 (List.length_pos_of_ne_nil hne)
    · exact horder.map _ fun p q h => Nat.add_lt_add_left h _
  · refine List.forall_mem_cons.mpr ⟨?_, fun p hp => ?_⟩
    · refine ⟨[], xs ++ ys, [], c, c', by simp, rfl, by simp [hne], hs, rfl, ?_⟩
      rw [List.nil_append]
      exact depthAfter?_append_iff.mpr ⟨0, hxs, hys⟩
    · obtain ⟨q, hq, rfl⟩ := List.mem_map.mp hp
      simpa using (hplaces q hq).within hxs []

end RestIn

/-- Code of statements: settled from an empty stack to an empty stack, also between any two of the
statements. -/
structure AtRest (o : Options) (f : Frame) (ss : List Stmt) (code : List Instruction) : Prop where
  settled : settledAfter? 0 code = some 0
  placed : RestIn o f code ss

namespace AtRest

variable {ss ts : List Stmt} {xs ys code : List Instruction}

theorem of_settled (h : settledAfter? 0 code = some 0) : AtRest o f [] code :=
  ⟨h, .nil code⟩

theorem append (hx : AtRest o f ss xs) (hy : AtRest o f ts ys) :
    AtRest o f (ss ++ ts) (xs ++ ys) :=
  ⟨settledAfter?_append_iff.mpr ⟨0, hx.settled, hy.settled⟩,
    hx.placed.append (depthAfter?_of_settledAfter? hx.settled) hy.placed⟩

/-- Settled code behind statements. -/
theorem close (hx : AtRest o f ss xs) (hys : settledAfter? 0 ys = some 0) :
    AtRest o f ss (xs ++ ys) := by
  simpa using hx.append (of_settled hys)

/-- Settled code before statements. -/
theorem prepend (hxs : settledAfter? 0 xs = some 0) (hy : AtRest o f ss ys) :
    AtRest o f ss (xs ++ ys) :=
  (of_settled hxs).append hy

/-- A statement around others begins with settled code of its own. -/
theorem cons {s : Stmt} {c c' : Counters} (hs : (s.emit o f).Emits c (xs ++ ys) c') (hne : xs ≠ [])
    (hxs : settledAfter? 0 xs = some 0) (hy : AtRest o f ss ys) :
    AtRest o f (s :: ss) (xs ++ ys) :=
  ⟨settledAfter?_append_iff.mpr ⟨0, hxs, hy.settled⟩,
    .cons hs hne (depthAfter?_of_settledAfter? hxs) (depthAfter?_of_settledAfter? hy.settled)
      hy.placed⟩

end AtRest

/-- The code of a condition leaves one value, whatever is done with it. -/
theorem Expr.code_settled {e : Expr} {order : OperatorOrder}
    (h : (e.code order f).fault = none) : settledAfter? 0 (e.code order f).items = some 1 :=
  e.code_moves f order h 0

/-- Every finished block is at rest between its statements. -/
theorem atRest_invariant (o : Options) (f : Frame) :
    EmissionInvariant o f fun ss _ code _ => AtRest o f ss code where
  nil := fun _ => .of_settled rfl
  append := AtRest.append
  plain := by
    intro s c code hs h
    have hcode : code ++ [] = code := List.append_nil code
    rw [← hcode] at h ⊢
    exact .cons h (Stmt.plain_ne_nil hs (hcode ▸ h)) (Stmt.plain_settled hs (hcode ▸ h))
      (.of_settled rfl)
  branch := by
    intro cond yes c c' ys code hcode hcond hs hyes
    have hlines : code = ((cond.code o.operatorOrder f).items ++
        [.ifGoto (.numbered .ifTrue c.conditionals), .goto (.numbered .ifFalse c.conditionals),
          .label (.numbered .ifTrue c.conditionals)]) ++
        (ys ++ [.label (.numbered .ifFalse c.conditionals)]) := by
      simp [hcode, branchLines]
    rw [hlines] at hs ⊢
    refine .cons hs (by simp) ?_ (hyes.close rfl)
    exact settledAfter?_append_iff.mpr ⟨1, Expr.code_settled hcond, rfl⟩
  branchElse := by
    intro cond yes no c d c' ys zs code hcode hcond hs hyes hno
    have hlines : code = ((cond.code o.operatorOrder f).items ++
        [.ifGoto (.numbered .ifTrue c.conditionals), .goto (.numbered .ifFalse c.conditionals),
          .label (.numbered .ifTrue c.conditionals)]) ++
        (ys ++ ([.goto (.numbered .ifEnd c.conditionals),
          .label (.numbered .ifFalse c.conditionals)] ++
          (zs ++ [.label (.numbered .ifEnd c.conditionals)]))) := by
      simp [hcode, branchElseLines]
    rw [hlines] at hs ⊢
    refine .cons hs (by simp) ?_ (hyes.append (.prepend rfl (hno.close rfl)))
    exact settledAfter?_append_iff.mpr ⟨1, Expr.code_settled hcond, rfl⟩
  loop := by
    intro cond body c c' ys code hcode hcond hs hbody
    have hlines : code = ([.label (.numbered .whileStart c.loops)] ++
        ((cond.code o.operatorOrder f).items ++
          [.command .not, .ifGoto (.numbered .whileEnd c.loops)])) ++
        (ys ++ [.goto (.numbered .whileStart c.loops), .label (.numbered .whileEnd c.loops)]) := by
      simp [hcode, loopLines]
    rw [hlines] at hs ⊢
    refine .cons hs (by simp) ?_ (hbody.close rfl)
    exact settledAfter?_append_iff.mpr
      ⟨0, rfl, settledAfter?_append_iff.mpr ⟨1, Expr.code_settled hcond, rfl⟩⟩
  shift := fun _ h => h

/-! ## Functions -/

/-- The stack discipline of the function of a subroutine. -/
structure ClassTree.Disciplined (o : Options) (c : ClassTree) (s : Subroutine)
    (fn : List Instruction) : Prop where
  /-- No instruction finds fewer values than it takes. -/
  enough : ∀ pre i post, fn = pre ++ i :: post → ∃ d, depthAfter? 0 pre = some d ∧ i.takes ≤ d
  ends : depthAfter? 0 fn = some 0
  labels : ∀ pre l post, fn = pre ++ .label l :: post → depthAfter? 0 pre = some 0
  gotos : ∀ pre l post, fn = pre ++ .goto l :: post → depthAfter? 0 (pre ++ [.goto l]) = some 0
  ifGotos : ∀ pre l post, fn = pre ++ .ifGoto l :: post →
    depthAfter? 0 (pre ++ [.ifGoto l]) = some 0
  rets : ∀ pre post, fn = pre ++ .ret :: post → depthAfter? 0 pre = some 1
  expressions : ∀ e ∈ s.exprs, (e.code o.operatorOrder (c.frame s)).fault = none ∧
    (e.code o.operatorOrder (c.frame s)).items <:+: fn ∧
    LeavesOneValue (e.code o.operatorOrder (c.frame s)).items
  statements : RestIn o (c.frame s) fn s.stmts

namespace ClassTree

theorem opening_settled (c : ClassTree) (s : Subroutine) :
    settledAfter? 0 (c.opening s) = some 0 := by
  rw [opening]
  cases s.kind <;> rfl

/-- Compiled code obeys the stack discipline: every function of a class that compiles has values
enough for each of its instructions, every expression makes one value of its own, and control leaves
and comes to places, and statements begin and end, with an empty stack. -/
theorem functions_disciplined (o : Options) (c : ClassTree) (hc : (c.output o).fault = none) :
    List.Forall₂ (c.Disciplined o) c.subroutines (functions (c.output o).items) := by
  rw [functions_output hc, List.forall₂_map_right_iff, List.forall₂_same]
  intro s hs
  have hbody := bodyCode_emits ((output_finished hc).2 s hs)
  have hrest := ((atRest_invariant o (c.frame s)).block _ hbody).prepend (c.opening_settled s)
  generalize hfn : c.opening s ++ (c.bodyCode o s).items = fn at hrest
  obtain ⟨hsettled, hplaced⟩ := hrest
  -- Where a jump, a label or a return stands, the walk is settled.
  have hat : ∀ {pre i post}, fn = pre ++ i :: post →
      ∃ e, depthAfter? 0 pre = some e ∧ i.settledAt e = true := by
    rintro pre i post rfl
    obtain ⟨e, hpre, hi⟩ := settledAt_of_settledAfter? hsettled
    exact ⟨e, depthAfter?_of_settledAfter? hpre, hi⟩
  have hwalk := depthAfter?_of_settledAfter? hsettled
  refine ⟨fun pre i post h => takes_le_of_depthAfter? (h ▸ hwalk), hwalk, fun pre l post h => ?_,
    fun pre l post h => ?_, fun pre l post h => ?_, fun pre post h => ?_, fun e he => ?_, hplaced⟩
  · obtain ⟨d, hpre, hd⟩ := hat h
    obtain rfl : d = 0 := by simpa [Instruction.settledAt] using hd
    exact hpre
  · obtain ⟨d, hpre, hd⟩ := hat h
    obtain rfl : d = 0 := by simpa [Instruction.settledAt] using hd
    exact depthAfter?_append_iff.mpr ⟨0, hpre, rfl⟩
  · obtain ⟨d, hpre, hd⟩ := hat h
    obtain rfl : d = 1 := by simpa [Instruction.settledAt] using hd
    exact depthAfter?_append_iff.mpr ⟨1, hpre, rfl⟩
  · obtain ⟨d, hpre, hd⟩ := hat h
    obtain rfl : d = 1 := by simpa [Instruction.settledAt] using hd
    exact hpre
  · obtain ⟨x, hx, he⟩ := List.mem_flatMap.mp he
    obtain ⟨_, is, _, hemits, his⟩ := (holds_invariant o _).block _ hbody x hx
    obtain ⟨hfault, hitems⟩ := Stmt.exprs_part hemits he rfl
    refine ⟨hfault, (hitems.trans his).trans ?_, ?_⟩
    · rw [← hfn]
      exact List.infix_append_right
    · exact (e.code_moves _ _).leavesOneValue hfault (e.code_isStraight _ _)

end ClassTree

/-- A class with one method that sets an element of an array to the result of a call, whose
arguments read an element and negate a difference, and returns from a branch if it can. -/
def nestedCall : ClassTree :=
  let a : Name := ⟨"a", ⟨0, 1⟩⟩
  let f : Name := ⟨"f", ⟨0, 1⟩⟩
  let two : Term := .integer 2
  let element : Expr := .operand [] (.element a (.operand [] two))
  let difference : Expr := .operand [.neg] (.paren (.binary [] two .sub (.operand [] two)))
  { name := ⟨"Main", ⟨0, 4⟩⟩
    vars := []
    subroutines := [
      { kind := .method
        returns := none
        name := f
        parameters := [⟨.object "Array", a⟩]
        body := ⟨[], [
          .assign a (some (.operand [] two)) (.operand [] (.call (.mk none f [element, difference]))),
          .branch element [.ret none] none,
          .ret none]⟩ }] }

theorem nestedCall_disciplined :
    (nestedCall.output .standard).fault = none ∧
      (functions (nestedCall.output .standard).items).map (fun fn =>
        (List.range (fn.length + 1)).map fun n => depthAfter? 0 (fn.take n)) =
        [[0, 0, 1, 0, 1, 2, 1, 2, 3, 4, 3, 2, 3, 4, 5, 4, 4, 2, 1, 0, 1, 0, 1, 2, 1, 0, 1, 0, 0, 0,
          1, 0, 0, 1, 0].map some] ∧
      List.Forall₂ (nestedCall.Disciplined .standard) nestedCall.subroutines
        (functions (nestedCall.output .standard).items) :=
  ⟨by decide, by decide, ClassTree.functions_disciplined .standard nestedCall (by decide)⟩

end JackCompiler
