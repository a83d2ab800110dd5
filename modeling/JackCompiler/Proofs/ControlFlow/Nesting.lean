import JackCompiler.Proofs.ControlFlow.Numbers

/-!
# Nested numbering

Under nested numbering a conditional has as its number how many conditionals on the way to it, itself
included, stand directly in a branch of another one. A loop in between hides what is around it, so
neighbours share a number, and a conditional in a loop has the number that is in force around the
loop.

A finished statement leaves the counter of conditionals as it found it. The counter is stepped down
only after it was stepped up, so it does not matter that it stays at zero when it is stepped down
there.

## Implementation notes

The way to a statement lists the statements passed from the block of the subroutine on, the statement
itself first. The code is compared with `blockLaidOut`, which has no counter for conditionals in it:
whatever gives a number to each way gives a listing.
-/

namespace JackCompiler

open Emitter

/-! ## Ways to statements -/

/-- A statement is a conditional. -/
def Stmt.isConditional : Stmt → Bool
  | .branch .. => true
  | _ => false

/-- How many conditionals on a way stand directly in a branch of another one. What a way passes right
after a conditional is a statement of one of its branches. -/
def nesting (way : List Stmt) : Nat :=
  (way.zip way.tail).countP fun p => p.1.isConditional && p.2.isConditional

theorem nesting_cons (s : Stmt) (way : List Stmt) : nesting (s :: way) =
    nesting way + if s.isConditional && way.head?.any Stmt.isConditional then 1 else 0 := by
  cases way with
  | nil => simp [nesting]
  | cons t way => simp [nesting, List.countP_cons]

mutual

/-- The ways to the conditionals in a statement that stands at the end of a way, in source order. -/
def Stmt.conditionals (way : List Stmt) : Stmt → List (List Stmt)
  | .branch cond yes none =>
      (.branch cond yes none :: way) :: blockConditionals (.branch cond yes none :: way) yes
  | .branch cond yes (some no) =>
      (.branch cond yes (some no) :: way) ::
        (blockConditionals (.branch cond yes (some no) :: way) yes ++
          blockConditionals (.branch cond yes (some no) :: way) no)
  | .loop cond body => blockConditionals (.loop cond body :: way) body
  | .assign .. | .call _ | .ret _ => []
termination_by structural s => s

/-- The ways to the conditionals in the statements of a block. -/
def blockConditionals (way : List Stmt) : List Stmt → List (List Stmt)
  | [] => []
  | s :: ss => s.conditionals way ++ blockConditionals way ss
termination_by structural ss => ss

end

/-! ## Listings numbered by ways -/

/-- The number of loops in a block, those inside other statements included. -/
def loopCount (ss : List Stmt) : Nat :=
  (blockStmts ss).countP Numbered.loop.counts

section Listing

variable (order : OperatorOrder) (f : Frame) (number : List Stmt → Nat)

mutual

/-- The code of a statement at the end of a way. Each conditional has the number of the way to it, and
loops are numbered in source order. -/
def Stmt.laidOut (way : List Stmt) (loops : Nat) : Stmt → List Instruction
  | .branch cond yes none =>
      branchLines (number (.branch cond yes none :: way)) (cond.code order f).items
        (blockLaidOut (.branch cond yes none :: way) loops yes)
  | .branch cond yes (some no) =>
      branchElseLines (number (.branch cond yes (some no) :: way)) (cond.code order f).items
        (blockLaidOut (.branch cond yes (some no) :: way) loops yes)
        (blockLaidOut (.branch cond yes (some no) :: way) (loops + loopCount yes) no)
  | .loop cond body =>
      loopLines loops (cond.code order f).items
        (blockLaidOut (.loop cond body :: way) (loops + 1) body)
  | .assign target index value => (assignCode order f target index value).items
  | .call c => (c.code order f ++ .of [.pop .temp 0]).items
  | .ret value => (returnCode order f value).items
termination_by structural s => s

/-- The code of the statements of a block at the end of a way. -/
def blockLaidOut (way : List Stmt) (loops : Nat) : List Stmt → List Instruction
  | [] => []
  | s :: ss =>
      s.laidOut way loops ++ blockLaidOut way (loops + s.all.countP Numbered.loop.counts) ss
termination_by structural ss => ss

end

end Listing

/-! ## Counters -/

section Emission

variable {order : OperatorOrder} {f : Frame} {c c' : Counters} {code : List Instruction}

/-- Under nested numbering finished statements leave the counter of conditionals as they found it. -/
theorem restores_invariant (order : OperatorOrder) (f : Frame) :
    EmissionInvariant ⟨.nested, order⟩ f fun _ c _ c' => c'.conditionals = c.conditionals where
  nil := fun _ => rfl
  append := fun h h' => h'.trans h
  plain := fun _ _ => rfl
  branch := fun _ _ _ h => h
  branchElse := fun _ _ _ h h' => h'.trans h
  loop := fun _ _ _ h => h
  shift := by
    intro ss c code d _ h
    exact congrArg (· - 1) h

/-- A finished statement has stepped the counter of loops for each loop in it. -/
theorem Stmt.emits_counters {s : Stmt} (h : (s.emit ⟨.nested, order⟩ f).Emits c code c') :
    c'.conditionals = c.conditionals ∧ c'.loops = c.loops + s.all.countP Numbered.loop.counts :=
  ⟨(restores_invariant order f).stmt s h,
    ((numbersInOrder_invariant (k := .loop) (.inr rfl) f).stmt s h).counter⟩

theorem emitBranch_counters {ss : List Stmt}
    (h : (emitBranch ⟨.nested, order⟩ f ss).Emits c code c') :
    c'.conditionals = c.conditionals ∧ c'.loops = c.loops + loopCount ss :=
  ⟨(restores_invariant order f).branchBlock ss h,
    ((numbersInOrder_invariant (k := .loop) (.inr rfl) f).branchBlock ss h).counter⟩

/-- A conditional in a branch is emitted with the counter one higher, and any other statement as
anywhere else. -/
theorem Emitter.emits_inBranch_nested {s : Stmt} {e : Emitter}
    (h : (inBranch ⟨.nested, order⟩ s e).Emits c code c') :
    (s.isConditional = true ∧ ∃ d, e.Emits (c.increment .conditional) code d ∧
        c' = d.decrement .conditional) ∨
      s.isConditional = false ∧ e.Emits c code c' := by
  cases s with
  | branch cond yes no =>
      obtain ⟨_, d, _, hup, hrest, rfl⟩ := emits_append_iff.mp h
      obtain ⟨xs, d', _, he, hdown, rfl⟩ := emits_append_iff.mp hrest
      cases hup
      cases hdown
      exact .inl ⟨rfl, d', by simpa using he, rfl⟩
  | assign | loop | call | ret => exact .inr ⟨rfl, h⟩

/-! ## Numbers are nestings -/

theorem firsts_branchLines (cond : Expr) (n : Nat) (ys : List Instruction) :
    numbersOf .ifTrue (branchLines n (cond.code order f).items ys) = n :: numbersOf .ifTrue ys := by
  simp [numbersOf, labels_branchLines, Label.number?]

theorem firsts_branchElseLines (cond : Expr) (n : Nat) (ys zs : List Instruction) :
    numbersOf .ifTrue (branchElseLines n (cond.code order f).items ys zs) =
      n :: (numbersOf .ifTrue ys ++ numbersOf .ifTrue zs) := by
  simp [numbersOf, labels_branchElseLines, Label.number?]

theorem firsts_loopLines (cond : Expr) (n : Nat) (ys : List Instruction) :
    numbersOf .ifTrue (loopLines n (cond.code order f).items ys) = numbersOf .ifTrue ys := by
  simp [numbersOf, labels_loopLines, Label.number?]

/-- A statement of a block adds nothing to the way around the block, unless it is a conditional in a
branch. -/
theorem nesting_cons_of_not {s : Stmt} {way : List Stmt}
    (h : (s.isConditional && way.head?.any Stmt.isConditional) = false) :
    nesting (s :: way) = nesting way := by
  rw [nesting_cons, h]
  rfl

mutual

/-- A finished statement is laid out with nestings as numbers, given that the counter has the nesting
of the way to it. -/
theorem Stmt.emits_nested : (s : Stmt) → (way : List Stmt) → {c c' : Counters} →
    {code : List Instruction} → (s.emit ⟨.nested, order⟩ f).Emits c code c' →
    c.conditionals = nesting (s :: way) →
    code = s.laidOut order f nesting way c.loops ∧
      numbersOf .ifTrue code = (s.conditionals way).map nesting
  | .branch cond yes none, way, c, c', code, h, hc => by
      obtain ⟨ys, -, hyes, rfl⟩ := Stmt.emits_branch_none h
      obtain ⟨hys, hnumbers⟩ := emitBranch_nested yes (.branch cond yes none :: way) hyes rfl hc
      rw [hc, Stmt.laidOut, Stmt.conditionals, List.map_cons, ← hnumbers]
      exact ⟨congrArg (branchLines _ _) hys, firsts_branchLines cond _ ys⟩
  | .branch cond yes (some no), way, c, c', code, h, hc => by
      obtain ⟨ys, d, zs, -, hyes, hno, rfl⟩ := Stmt.emits_branch_some h
      obtain ⟨hd, hloops⟩ := emitBranch_counters hyes
      obtain ⟨hys, hyesNumbers⟩ := emitBranch_nested yes (.branch cond yes (some no) :: way) hyes
        rfl hc
      obtain ⟨hzs, hnoNumbers⟩ := emitBranch_nested no (.branch cond yes (some no) :: way) hno
        rfl (hd.trans hc)
      rw [hloops] at hzs
      rw [hc, Stmt.laidOut, Stmt.conditionals, List.map_cons, List.map_append, ← hyesNumbers,
        ← hnoNumbers]
      exact ⟨congrArg₂ (branchElseLines _ _) hys hzs, firsts_branchElseLines cond _ ys zs⟩
  | .loop cond body, way, c, c', code, h, hc => by
      obtain ⟨ys, -, hbody, rfl⟩ := Stmt.emits_loop h
      obtain ⟨hys, hnumbers⟩ := emitBlock_nested body (.loop cond body :: way) hbody rfl hc
      rw [Stmt.laidOut, Stmt.conditionals, ← hnumbers]
      exact ⟨congrArg (loopLines _ _) hys, firsts_loopLines cond _ ys⟩
  | .assign target index value, way, c, c', code, h, _ => by
      have hlabels := Stmt.plain_labels rfl h
      obtain ⟨-, rfl, -⟩ := Stmt.emits_assign h
      exact ⟨rfl, numbersOf_eq_nil hlabels _⟩
  | .call call, way, c, c', code, h, _ => by
      have hlabels := Stmt.plain_labels rfl h
      obtain ⟨-, rfl, -⟩ := Stmt.emits_call h
      exact ⟨rfl, numbersOf_eq_nil hlabels _⟩
  | .ret value, way, c, c', code, h, _ => by
      have hlabels := Stmt.plain_labels rfl h
      obtain ⟨-, rfl, -⟩ := Stmt.emits_ret h
      exact ⟨rfl, numbersOf_eq_nil hlabels _⟩
termination_by structural s => s

theorem emitBlock_nested : (ss : List Stmt) → (way : List Stmt) → {c c' : Counters} →
    {code : List Instruction} → (emitBlock ⟨.nested, order⟩ f ss).Emits c code c' →
    way.head?.any Stmt.isConditional = false → c.conditionals = nesting way →
    code = blockLaidOut order f nesting way c.loops ss ∧
      numbersOf .ifTrue code = (blockConditionals way ss).map nesting
  | [], way, c, c', code, h, _, _ => by
      obtain ⟨rfl, rfl⟩ := emits_emit_iff.mp h
      exact ⟨rfl, rfl⟩
  | s :: ss, way, c, c', code, h, hway, hc => by
      obtain ⟨xs, d, ys, hs, hss, rfl⟩ := emits_append_iff.mp h
      obtain ⟨hd, hloops⟩ := Stmt.emits_counters hs
      have hnesting : nesting (s :: way) = nesting way := nesting_cons_of_not (by simp [hway])
      obtain ⟨hxs, hfirst⟩ := Stmt.emits_nested s way hs (hc.trans hnesting.symm)
      obtain ⟨hys, hrest⟩ := emitBlock_nested ss way hss hway (hd.trans hc)
      rw [hloops] at hys
      rw [numbersOf_append, hfirst, hrest, blockLaidOut, blockConditionals, List.map_append]
      exact ⟨congrArg₂ (· ++ ·) hxs hys, rfl⟩
termination_by structural ss => ss

theorem emitBranch_nested : (ss : List Stmt) → (way : List Stmt) → {c c' : Counters} →
    {code : List Instruction} → (emitBranch ⟨.nested, order⟩ f ss).Emits c code c' →
    way.head?.any Stmt.isConditional = true → c.conditionals = nesting way →
    code = blockLaidOut order f nesting way c.loops ss ∧
      numbersOf .ifTrue code = (blockConditionals way ss).map nesting
  | [], way, c, c', code, h, _, _ => by
      obtain ⟨rfl, rfl⟩ := emits_emit_iff.mp h
      exact ⟨rfl, rfl⟩
  | s :: ss, way, c, c', code, h, hway, hc => by
      obtain ⟨xs, d, ys, hs, hss, rfl⟩ := emits_append_iff.mp h
      -- A conditional counts one deeper, and the counter is back behind it.
      obtain ⟨⟨hxs, hfirst⟩, hd, hloops⟩ : (xs = s.laidOut order f nesting way c.loops ∧
          numbersOf .ifTrue xs = (s.conditionals way).map nesting) ∧
          d.conditionals = c.conditionals ∧
            d.loops = c.loops + s.all.countP Numbered.loop.counts := by
        rcases emits_inBranch_nested hs with ⟨hcond, e, hs', rfl⟩ | ⟨hcond, hs'⟩
        · have hnesting : (c.increment .conditional).conditionals = nesting (s :: way) := by
            rw [nesting_cons, hcond, hway, ← hc]
            rfl
          have hstmt := Stmt.emits_nested s way hs' hnesting
          obtain ⟨he, hloops⟩ := Stmt.emits_counters hs'
          exact ⟨hstmt, congrArg (· - 1) he, hloops⟩
        · have hnesting : nesting (s :: way) = nesting way :=
            nesting_cons_of_not (by simp [hcond])
          exact ⟨Stmt.emits_nested s way hs' (hc.trans hnesting.symm), Stmt.emits_counters hs'⟩
      obtain ⟨hys, hrest⟩ := emitBranch_nested ss way hss hway (hd.trans hc)
      rw [hloops] at hys
      rw [numbersOf_append, hfirst, hrest, blockLaidOut, blockConditionals, List.map_append]
      exact ⟨congrArg₂ (· ++ ·) hxs hys, rfl⟩
termination_by structural ss => ss

end

end Emission

/-! ## Stepping down -/

/-- Change the counters by a given function. -/
def Emitter.stepBy (down : Counters → Counters) : Emitter :=
  fun c => (.of [], down c)

/-- Emit a statement of a branch, with a given function that steps the counter of conditionals
down. -/
def Emitter.inBranchDown (down : Counters → Counters) (o : Options) (s : Stmt) (e : Emitter) :
    Emitter :=
  match o.ifNumbering, s with
  | .nested, .branch .. => increment .conditional ++ (e ++ stepBy down)
  | _, _ => e

section Down

variable (down : Counters → Counters) (o : Options) (f : Frame)

mutual

/-- Emit a statement, with a given function that steps the counter of conditionals down. -/
def Stmt.emitDown : Stmt → Emitter
  | .branch cond yes no =>
      withIfNumber o.ifNumbering fun n =>
        .ofCode (cond.code o.operatorOrder f) ++
          (.emit [.ifGoto (.numbered .ifTrue n), .goto (.numbered .ifFalse n),
            .label (.numbered .ifTrue n)] ++
          (emitBranchDown yes ++
          match no with
          | some stmts =>
              .emit [.goto (.numbered .ifEnd n), .label (.numbered .ifFalse n)] ++
                (emitBranchDown stmts ++ .emit [.label (.numbered .ifEnd n)])
          | none => .emit [.label (.numbered .ifFalse n)]))
  | .loop cond body =>
      withNext .loop fun n =>
        .emit [.label (.numbered .whileStart n)] ++
          (.ofCode (cond.code o.operatorOrder f) ++
          (.emit [.command .not, .ifGoto (.numbered .whileEnd n)] ++
          (emitBlockDown body ++
            .emit [.goto (.numbered .whileStart n), .label (.numbered .whileEnd n)])))
  | .assign target index value => .ofCode (assignCode o.operatorOrder f target index value)
  | .call c => .ofCode (c.code o.operatorOrder f ++ .of [.pop .temp 0])
  | .ret value => .ofCode (returnCode o.operatorOrder f value)
termination_by structural s => s

/-- Emit a block, with a given function that steps the counter of conditionals down. -/
def emitBlockDown : List Stmt → Emitter
  | [] => .emit []
  | s :: ss => s.emitDown ++ emitBlockDown ss
termination_by structural ss => ss

/-- Emit a branch, with a given function that steps the counter of conditionals down. -/
def emitBranchDown : List Stmt → Emitter
  | [] => .emit []
  | s :: ss => inBranchDown down o s s.emitDown ++ emitBranchDown ss
termination_by structural ss => ss

end

end Down

/-- Stepping down undoes a step up. Nothing is said of a counter at zero. -/
def StepsDown (down : Counters → Counters) : Prop :=
  ∀ c : Counters, down (c.increment .conditional) = c

/-- The counter is above zero where it is stepped down, so only what becomes of such a counter
matters. -/
theorem Emitter.inBranchDown_eq {down : Counters → Counters} (hdown : StepsDown down) (o : Options)
    (f : Frame) (s : Stmt) : inBranchDown down o s (s.emit o f) = inBranch o s (s.emit o f) := by
  obtain ⟨numbering, order⟩ := o
  cases numbering with
  | unique => cases s <;> rfl
  | nested =>
      cases s with
      | assign | loop | call | ret => rfl
      | branch cond yes no =>
          funext c
          have happend (a b : Emitter) (d : Counters) : (a ++ b) d = a.append b d := rfl
          simp only [inBranchDown, inBranch, happend, Emitter.append, increment, Trail.of]
          rcases he : (Stmt.branch cond yes no).emit ⟨.nested, order⟩ f (c.increment .conditional)
            with ⟨⟨xs, _ | e⟩, d⟩
          · have hemits : ((Stmt.branch cond yes no).emit ⟨.nested, order⟩ f).Emits
                (c.increment .conditional) xs d := he
            obtain ⟨hd, -⟩ := Stmt.emits_counters hemits
            have hup : d = (⟨c.conditionals, d.loops⟩ : Counters).increment .conditional :=
              congrArg (Counters.mk · d.loops) hd
            simp only [stepBy, decrement]
            rw [hup, hdown, Counters.decrement_increment]
          · rfl

section

variable {down : Counters → Counters} (o : Options) (f : Frame)

mutual

theorem Stmt.emitDown_eq (hdown : StepsDown down) : (s : Stmt) → s.emitDown down o f = s.emit o f
  | .branch cond yes none => by
      simp only [Stmt.emitDown, Stmt.emit, emitBranchDown_eq hdown yes]
  | .branch cond yes (some no) => by
      simp only [Stmt.emitDown, Stmt.emit, emitBranchDown_eq hdown yes, emitBranchDown_eq hdown no]
  | .loop cond body => by
      simp only [Stmt.emitDown, Stmt.emit, emitBlockDown_eq hdown body]
  | .assign .. | .call _ | .ret _ => rfl
termination_by structural s => s

/-- Whatever steps the counter down, as long as it undoes a step up, a block is emitted in the same
way. -/
theorem emitBlockDown_eq (hdown : StepsDown down) :
    (ss : List Stmt) → emitBlockDown down o f ss = emitBlock o f ss
  | [] => rfl
  | s :: ss => by
      rw [emitBlockDown, emitBlock, Stmt.emitDown_eq hdown s, emitBlockDown_eq hdown ss]
termination_by structural ss => ss

theorem emitBranchDown_eq (hdown : StepsDown down) :
    (ss : List Stmt) → emitBranchDown down o f ss = emitBranch o f ss
  | [] => rfl
  | s :: ss => by
      rw [emitBranchDown, emitBranch, Stmt.emitDown_eq hdown s, inBranchDown_eq hdown o f s,
        emitBranchDown_eq hdown ss]
termination_by structural ss => ss

end

end

/-! ## Subroutines -/

namespace Generator

/-- A subroutine that is finished has emitted its function line, its prologue and its block, from
counters at zero. -/
theorem subroutine_finished {o : Options} {s : Subroutine} {g g' : Generator} {t : Trail Record}
    (h : g.subroutine o s = (t, g')) (ht : t.fault = none) :
    ∃ code, (emitBlock o g'.frame s.body.block).Emits .zero code g'.counters ∧
      t.instructions.items = .function (g.className ++ "." ++ s.name.text) (g'.scope.count .localVar) ::
        (s.kind.prologue (g.classScope.count .field) ++ code) := by
  have hdeclared := Scope.declare_instructions (s.kind.scope g.className) s.declarations
  unfold subroutine at h
  rcases hd : (s.kind.scope g.className).declare s.declarations with ⟨⟨records, _ | e⟩, scope⟩
  · rw [hd] at h hdeclared
    obtain ⟨rfl, rfl⟩ := Prod.mk.inj h
    obtain ⟨-, hcode⟩ := Trail.fault_append_eq_none_iff.mp ht
    refine ⟨(emitBlock o (frame { g with scope := scope }) s.body.block .zero).1.items,
      Prod.ext (Trail.eq_mk_iff.mpr ⟨hcode, rfl⟩) rfl, ?_⟩
    rw [Trail.instructions_append, Trail.instructions_append, hdeclared]
    simp only [Trail.instructions_map_instruction]
    rfl
  · rw [hd] at h
    cases h
    cases ht

/-- A subroutine that compiles under nested numbering has as the number of each conditional the nesting
of the way to it, in the listing as a whole and for the conditionals in source order. Any statement
and any block that is finished leaves the counter of conditionals as it found it, and the counter is
never stepped down at zero: with anything else done there all code and all counters are the same. -/
theorem subroutine_nested {order : OperatorOrder} {s : Subroutine} {g g' : Generator}
    {t : Trail Record} (h : g.subroutine ⟨.nested, order⟩ s = (t, g')) (ht : t.fault = none) :
    (t.instructions.items =
        .function (g.className ++ "." ++ s.name.text) (g'.scope.count .localVar) ::
          (s.kind.prologue (g.classScope.count .field) ++
            blockLaidOut order g'.frame nesting [] 0 s.body.block) ∧
      numbersOf .ifTrue t.instructions.items = (blockConditionals [] s.body.block).map nesting) ∧
    (∀ f c code c',
      (∀ x : Stmt, (x.emit ⟨.nested, order⟩ f).Emits c code c' →
        c'.conditionals = c.conditionals) ∧
      (∀ ss, (emitBlock ⟨.nested, order⟩ f ss).Emits c code c' →
        c'.conditionals = c.conditionals) ∧
      ∀ ss, (emitBranch ⟨.nested, order⟩ f ss).Emits c code c' →
        c'.conditionals = c.conditionals) ∧
    ∀ down, StepsDown down → ∀ f,
      (∀ x : Stmt, x.emitDown down ⟨.nested, order⟩ f = x.emit ⟨.nested, order⟩ f) ∧
      ∀ ss, emitBlockDown down ⟨.nested, order⟩ f ss = emitBlock ⟨.nested, order⟩ f ss := by
  obtain ⟨code, hemits, hitems⟩ := subroutine_finished h ht
  obtain ⟨hcode, hnumbers⟩ := emitBlock_nested s.body.block [] hemits rfl rfl
  have hopening : labels (.function (g.className ++ "." ++ s.name.text) (g'.scope.count .localVar) ::
      s.kind.prologue (g.classScope.count .field)) = [] := by
    refine List.filterMap_eq_nil_iff.mpr (List.forall_mem_cons.mpr ⟨rfl, fun i hi => ?_⟩)
    exact Instruction.label?_of_isStraight (s.kind.prologue_isStraight _ i hi)
  refine ⟨⟨?_, ?_⟩, fun f c code c' => ⟨fun x hx => ?_, fun ss hss => ?_, fun ss hss => ?_⟩,
    fun down hdown f => ⟨fun x => x.emitDown_eq _ f hdown, fun ss => emitBlockDown_eq _ f hdown ss⟩⟩
  · rw [hitems, hcode]
    rfl
  · rw [hitems, ← List.cons_append, numbersOf_append, numbersOf_eq_nil hopening, hnumbers]
    rfl
  · exact (restores_invariant order f).stmt x hx
  · exact (restores_invariant order f).block ss hss
  · exact (restores_invariant order f).branchBlock ss hss

end Generator

/-- A function with conditionals in both branches of another one, in a branch of one of those, and in
loops inside a branch and behind the conditional. -/
def steppedSubroutine : Subroutine :=
  let always : Expr := .operand [] (.word .true)
  { kind := .function
    returns := none
    name := ⟨"main", ⟨0, 4⟩⟩
    parameters := []
    body := ⟨[], [
      .branch always
        [.branch always [] none, .loop always [.branch always [] none]]
        (some [.branch always [.branch always [] none] none]),
      .loop always [.branch always [] none],
      .ret none]⟩ }

theorem steppedSubroutine_nested :
    (Generator.new.subroutine ⟨.nested, .deferred⟩ steppedSubroutine).1.fault = none ∧
      numbersOf .ifTrue (Generator.new.subroutine ⟨.nested, .deferred⟩
        steppedSubroutine).1.instructions.items = [0, 1, 0, 1, 2, 0] := by
  have hrun : Generator.new.subroutine ⟨.nested, .deferred⟩ steppedSubroutine =
      ((Generator.new.subroutine ⟨.nested, .deferred⟩ steppedSubroutine).1,
        (Generator.new.subroutine ⟨.nested, .deferred⟩ steppedSubroutine).2) := rfl
  have hfault : (Generator.new.subroutine ⟨.nested, .deferred⟩ steppedSubroutine).1.fault = none := by
    decide
  exact ⟨hfault, (Generator.subroutine_nested hrun hfault).1.2.trans (by decide)⟩

end JackCompiler
