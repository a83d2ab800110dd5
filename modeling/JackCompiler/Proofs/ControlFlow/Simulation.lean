import JackCompiler.Proofs.ControlFlow.Labels
import JackCompiler.Proofs.ControlFlow.Runs
import Mathlib.Data.List.Forall2

/-!
# The listing of a subroutine runs as its statements do

A position of a listing and a list of statements still to be run match when the listing goes on with
the code of the statements, one after the other, with labels and jumps in between that lead from one
to the next. One step of the statements is then some steps of the listing, which show the same and
end at a matching position. The jumps find their places because no label occurs twice in a function.

## Implementation notes

`Matches` is an invariant on suffixes of one listing. That a loop comes back to its start is no
recursion of the invariant: its last jump leads to a position that matches because the code of the
loop stands there.
-/

namespace JackCompiler

open Emitter

/-- The texts of the labels of a listing are distinct. -/
def DistinctLabels (code : List Instruction) : Prop :=
  ((labels code).map Label.text).Nodup

theorem suffix_of_cons {i : Instruction} {is code : List Instruction} (h : (i :: is) <:+ code) :
    is <:+ code :=
  (List.suffix_cons i is).trans h

theorem suffix_of_append {xs ys code : List Instruction} (h : (xs ++ ys) <:+ code) : ys <:+ code :=
  (List.suffix_append xs ys).trans h

/-- A jump to the only label of a name leads to that label. -/
theorem target_of_distinct {code rest : List Instruction} {l : Label} (h : DistinctLabels code)
    (hl : (.label l :: rest) <:+ code) : target l.text code = some (.label l :: rest) := by
  obtain ⟨before, rfl⟩ := hl
  have hnew : ∀ l' ∈ labels before, l'.text ≠ l.text := by
    rw [DistinctLabels, labels_append, List.map_append] at h
    intro l' hl'
    apply (List.nodup_append.mp h).2.2 _ (List.mem_map_of_mem hl') _
    simp [labels_cons, Instruction.label?]
  induction before with
  | nil => simp [target, Instruction.label?]
  | cons i before ih =>
      rw [labels_cons] at hnew
      have hi : i.label?.any (·.text == l.text) = false := by
        rw [Option.any_eq_false_iff_get]
        intro hsome
        simpa using hnew _ (List.mem_append_left _ (by simp))
      rw [List.cons_append, target, hi]
      refine ih ?_ fun l' hl' => hnew l' (List.mem_append_right _ hl')
      rw [DistinctLabels, List.cons_append, labels_cons, List.map_append] at h
      exact (List.nodup_append.mp h).2.1

/-- A position of a listing matches the statements still to be run there. -/
inductive Matches (o : Options) (f : Frame) (code : List Instruction) :
    List Stmt → List Instruction → Prop
  | finish : Matches o f code [] []
  | stmt {s k c c' is rest} (hs : (s.emit o f).Emits c is c') (hk : Matches o f code k rest)
      (hin : (is ++ rest) <:+ code) : Matches o f code (s :: k) (is ++ rest)
  | label {l k rest} (hk : Matches o f code k rest) : Matches o f code k (.label l :: rest)
  | goto {l k rest rest'} (hl : target l.text code = some rest) (hk : Matches o f code k rest) :
      Matches o f code k (.goto l :: rest')

variable {o : Options} {f : Frame} {code : List Instruction}

/-- The code of a block matches its statements. -/
theorem Matches.block {ss k : List Stmt} {c c' : Counters} {is rest : List Instruction}
    (hss : (emitBlock o f ss).Emits c is c') (hk : Matches o f code k rest)
    (hin : (is ++ rest) <:+ code) : Matches o f code (ss ++ k) (is ++ rest) := by
  induction ss generalizing c is with
  | nil =>
      obtain ⟨rfl, -⟩ := emits_emit_iff.mp hss
      exact hk
  | cons s ss ih =>
      obtain ⟨xs, d, ys, hs, hys, rfl⟩ := emits_append_iff.mp hss
      rw [List.append_assoc] at hin ⊢
      exact .stmt hs (ih hys ((List.suffix_append _ _).trans hin)) hin

/-! ## Steps of the listing -/

namespace Process

variable {answers : Nat → Bool} {rest : List Instruction}

theorem run_label (n : Nat) (l : Label) :
    run (listingStep code) (n + 1) answers (.label l :: rest) =
      run (listingStep code) n answers rest := by
  rw [run_succ_of_step rfl, answersAfter_nil, List.nil_append]

theorem run_goto {l : Label} {rest' : List Instruction} (h : target l.text code = some rest)
    (n : Nat) :
    run (listingStep code) (n + 1) answers (.goto l :: rest') =
      run (listingStep code) n answers rest := by
  have hstep : listingStep code (.goto l :: rest') (answers 0) = some ([], rest) := by
    rw [listingStep, h, Option.map_some]
  rw [run_succ_of_step hstep, answersAfter_nil, List.nil_append]

/-- Straight-line instructions are executed in order. -/
theorem run_straight {is : List Instruction} (h : ∀ i ∈ is, i.isStraight = true) :
    run (listingStep code) is.length answers (is ++ rest) = (executed is, rest) := by
  induction is with
  | nil => rfl
  | cons i is ih =>
      have hstep : listingStep code (i :: (is ++ rest)) (answers 0) =
          some ([.execute i], is ++ rest) := by
        have hi := h i (by simp)
        cases i with
        | push | pop | command | call => rfl
        | label | goto | ifGoto | function | ret => cases hi
      rw [List.cons_append, List.length_cons, run_succ_of_step hstep]
      change ([.execute i] ++ (run _ is.length answers (is ++ rest)).1,
        (run _ is.length answers (is ++ rest)).2) = _
      rw [ih fun j hj => h j (List.mem_cons_of_mem i hj)]
      rfl

end Process

/-- Given the next answer, some steps of a listing lead from one position to another and show some
events on the way. -/
def Leads (code : List Instruction) (b : Bool) (rest : List Instruction) (es : List Event)
    (rest' : List Instruction) : Prop :=
  ∃ n, ∀ answers : Nat → Bool, answers 0 = b →
    Process.run (listingStep code) n answers rest = (es, rest')

namespace Leads

variable {b : Bool} {rest rest' rest'' : List Instruction} {es fs : List Event}

theorem refl (rest : List Instruction) : Leads code b rest [] rest :=
  ⟨0, fun _ _ => rfl⟩

theorem executed_append {is : List Instruction} (h : ∀ i ∈ is, i.isStraight = true)
    (hrest : Leads code b rest es rest') : Leads code b (is ++ rest) (executed is ++ es) rest' := by
  obtain ⟨n, hn⟩ := hrest
  refine ⟨is.length + n, fun answers hb => ?_⟩
  have hsame : answersAfter answers (executed is) = answers := by
    have hcount : (executed is).countP Event.isAnswer = 0 := by
      simp [executed, List.countP_eq_zero, Event.isAnswer]
    funext i
    rw [answersAfter, hcount, Nat.add_zero]
  rw [Process.run_add, Process.run_straight h, hsame, hn answers hb]

theorem label (l : Label) (h : Leads code b rest es rest') :
    Leads code b (.label l :: rest) es rest' := by
  obtain ⟨n, hn⟩ := h
  exact ⟨n + 1, fun answers hb => by rw [Process.run_label, hn answers hb]⟩

theorem goto {l : Label} (hl : target l.text code = some rest) (h : Leads code b rest es rest') :
    Leads code b (.goto l :: rest'') es rest' := by
  obtain ⟨n, hn⟩ := h
  exact ⟨n + 1, fun answers hb => by rw [Process.run_goto hl, hn answers hb]⟩

theorem ifGoto_taken {l : Label} (hb : l.taken b = true) (hl : target l.text code = some rest') :
    Leads code b (.ifGoto l :: rest) [.answer b] rest' := by
  refine ⟨1, ?_⟩
  rintro answers rfl
  have hstep : listingStep code (.ifGoto l :: rest) (answers 0) =
      some ([.answer (answers 0)], rest') := by
    rw [listingStep, if_pos hb, hl, Option.map_some]
  rw [Process.run_succ_of_step hstep]
  rfl

theorem ifGoto_passed {l : Label} (hb : l.taken b = false) :
    Leads code b (.ifGoto l :: rest) [.answer b] rest := by
  refine ⟨1, ?_⟩
  rintro answers rfl
  have hstep : listingStep code (.ifGoto l :: rest) (answers 0) =
      some ([.answer (answers 0)], rest) := by
    rw [listingStep, hb]
    rfl
  rw [Process.run_succ_of_step hstep]
  rfl

theorem ret : Leads code b (.ret :: rest) [.execute .ret] [] :=
  ⟨1, fun _ _ => rfl⟩

end Leads

/-! ## One step of the statements -/

/-- The listing shows from a position on what one step of the statements shows and comes to a
position that matches again; where no statement is left, it stops without showing anything. -/
def Followed (o : Options) (f : Frame) (code : List Instruction) (b : Bool) (k : List Stmt)
    (rest : List Instruction) : Prop :=
  match statementStep o.operatorOrder f k b with
  | none => k = [] ∧ Leads code b rest [] []
  | some (es, k') => es ≠ [] ∧ ∃ rest', Leads code b rest es rest' ∧ Matches o f code k' rest'

theorem Followed.silent {b : Bool} {k : List Stmt} {rest rest₂ : List Instruction}
    (h : Followed o f code b k rest)
    (hleads : ∀ es rest', Leads code b rest es rest' → Leads code b rest₂ es rest') :
    Followed o f code b k rest₂ := by
  unfold Followed at h ⊢
  split at h
  · exact ⟨h.1, hleads _ _ h.2⟩
  · obtain ⟨hne, rest', hl, hmatch⟩ := h
    exact ⟨hne, rest', hleads _ _ hl, hmatch⟩

theorem assignCode_ne_nil {order : OperatorOrder} {target : Name} {index : Option Expr}
    {value : Expr} (h : (assignCode order f target index value).fault = none) :
    (assignCode order f target index value).items ≠ [] := by
  unfold assignCode Frame.withCell at h ⊢
  split at h
  · cases index with
    | none =>
        rw [Trail.items_append (Trail.fault_append_eq_none_iff.mp h).1]
        simp [Trail.of]
    | some i =>
        have hi := (Trail.fault_append_eq_none_iff.mp h).1
        rw [Trail.items_append hi, Trail.items_append rfl]
        simp [Trail.of]
  · cases h

/-- The block of a return is straight-line code up to its last instruction. -/
theorem returnCode_finished {order : OperatorOrder} {value : Option Expr}
    (h : (returnCode order f value).fault = none) :
    ∃ is : List Instruction, (returnCode order f value).items = is ++ [.ret] ∧
      ∀ i ∈ is, i.isStraight = true := by
  cases value with
  | none => exact ⟨[pushConstant 0], rfl, by simp [pushConstant, Instruction.isStraight]⟩
  | some v =>
      refine ⟨(v.code order f).items, ?_, v.code_isStraight order f⟩
      exact Trail.items_append (Trail.fault_append_eq_none_iff.mp h).1 _

section Statement

variable {k : List Stmt} {c c' : Counters} {is rest : List Instruction}

theorem Matches.followed_assign {target : Name} {index : Option Expr} {value : Expr}
    (hs : ((Stmt.assign target index value).emit o f).Emits c is c')
    (hk : Matches o f code k rest) (b : Bool) :
    Followed o f code b (.assign target index value :: k) (is ++ rest) := by
  obtain ⟨hfault, rfl, rfl⟩ := Stmt.emits_assign hs
  refine ⟨by simpa [executed] using assignCode_ne_nil hfault, rest, ?_, hk⟩
  simpa using (Leads.refl rest).executed_append (assignCode_isStraight _ f target index value)

theorem Matches.followed_call {call : Call} (hs : ((Stmt.call call).emit o f).Emits c is c')
    (hk : Matches o f code k rest) (b : Bool) :
    Followed o f code b (.call call :: k) (is ++ rest) := by
  obtain ⟨hfault, rfl, rfl⟩ := Stmt.emits_call hs
  have hstraight := (call.code_isStraight o.operatorOrder f).append
    (.of_cons (i := .pop .temp 0) rfl .of_nil)
  rw [Code.IsStraight] at hstraight
  rw [Trail.items_append (Trail.fault_append_eq_none_iff.mp hfault).1] at hstraight ⊢
  refine ⟨by simp [executed], rest, ?_, hk⟩
  simpa [Trail.of] using (Leads.refl rest).executed_append hstraight

theorem Matches.followed_ret {value : Option Expr}
    (hs : ((Stmt.ret value).emit o f).Emits c is c') (b : Bool) :
    Followed o f code b (.ret value :: k) (is ++ rest) := by
  obtain ⟨hfault, rfl, rfl⟩ := Stmt.emits_ret hs
  obtain ⟨js, hjs, hstraight⟩ := returnCode_finished hfault
  rw [Followed, statementStep, hjs]
  refine ⟨by simp [executed], [], ?_, .finish⟩
  have hret : Leads code b (.ret :: rest) [.execute .ret] [] := .ret
  simpa [executed] using hret.executed_append hstraight

/-- A loop is entered behind its conditional jump, and its last jump leads to where it began. -/
theorem Matches.followed_loop (hcode : DistinctLabels code) {cond : Expr} {body : List Stmt}
    (hs : ((Stmt.loop cond body).emit o f).Emits c is c') (hk : Matches o f code k rest)
    (hin : (is ++ rest) <:+ code) (b : Bool) :
    Followed o f code b (.loop cond body :: k) (is ++ rest) := by
  have hself : Matches o f code (.loop cond body :: k) (is ++ rest) := .stmt hs hk hin
  obtain ⟨ys, -, hbody, rfl⟩ := Stmt.emits_loop hs
  simp only [List.append_assoc, List.cons_append, List.nil_append] at hin hself ⊢
  have hcond : ∀ i ∈ (cond.code o.operatorOrder f).items ++ [.command .not],
      i.isStraight = true :=
    List.forall_mem_append.mpr ⟨cond.code_isStraight _ f, by simp [Instruction.isStraight]⟩
  have hafter := suffix_of_cons (suffix_of_cons (suffix_of_append (suffix_of_cons hin)))
  have hend := suffix_of_cons (suffix_of_append hafter)
  refine ⟨by simp [executed], ?_⟩
  have hrun : ∀ {es rest'}, Leads code b (.ifGoto (.numbered .whileEnd c.loops) ::
        (ys ++ .goto (.numbered .whileStart c.loops) ::
          .label (.numbered .whileEnd c.loops) :: rest)) es rest' → _ :=
    fun h => (h.executed_append hcond).label (.numbered .whileStart c.loops)
  simp only [List.append_assoc, List.cons_append, List.nil_append] at hrun
  cases b with
  | true =>
      refine ⟨_, hrun (.ifGoto_passed rfl), ?_⟩
      exact .block hbody (.goto (target_of_distinct hcode hin) hself) hafter
  | false =>
      exact ⟨_, hrun (.ifGoto_taken rfl (target_of_distinct hcode hend)), .label hk⟩

/-- Behind the jumps of a conditional stands its branch, and behind that what follows it. -/
theorem Matches.followed_branch_none (ho : o.ifNumbering = .unique) (hcode : DistinctLabels code)
    {cond : Expr} {yes : List Stmt} (hs : ((Stmt.branch cond yes none).emit o f).Emits c is c')
    (hk : Matches o f code k rest) (hin : (is ++ rest) <:+ code) (b : Bool) :
    Followed o f code b (.branch cond yes none :: k) (is ++ rest) := by
  obtain ⟨ys, -, hyes, rfl⟩ := Stmt.emits_branch_none hs
  rw [emitBranch_unique ho] at hyes
  simp only [List.append_assoc, List.cons_append, List.nil_append] at hin ⊢
  have hyesLabel := suffix_of_cons (suffix_of_cons (suffix_of_append hin))
  have hyesCode := suffix_of_cons hyesLabel
  have hnoLabel := suffix_of_append hyesCode
  have htarget := target_of_distinct hcode hyesLabel
  have hcond := cond.code_isStraight o.operatorOrder f
  refine ⟨by simp [executed], ?_⟩
  cases b with
  | true =>
      refine ⟨_, (Leads.ifGoto_taken rfl htarget).executed_append hcond, ?_⟩
      exact .label (.block hyes (.label hk) hyesCode)
  | false =>
      refine ⟨_, (Leads.ifGoto_passed rfl).executed_append hcond, ?_⟩
      exact .goto (target_of_distinct hcode hnoLabel) (.label hk)

/-- The first of two branches ends with a jump over the second one. -/
theorem Matches.followed_branch_some (ho : o.ifNumbering = .unique) (hcode : DistinctLabels code)
    {cond : Expr} {yes no : List Stmt}
    (hs : ((Stmt.branch cond yes (some no)).emit o f).Emits c is c')
    (hk : Matches o f code k rest) (hin : (is ++ rest) <:+ code) (b : Bool) :
    Followed o f code b (.branch cond yes (some no) :: k) (is ++ rest) := by
  obtain ⟨ys, d, zs, -, hyes, hno, rfl⟩ := Stmt.emits_branch_some hs
  rw [emitBranch_unique ho] at hyes hno
  simp only [List.append_assoc, List.cons_append, List.nil_append] at hin ⊢
  have hyesLabel := suffix_of_cons (suffix_of_cons (suffix_of_append hin))
  have hyesCode := suffix_of_cons hyesLabel
  have hnoLabel := suffix_of_cons (suffix_of_append hyesCode)
  have hnoCode := suffix_of_cons hnoLabel
  have hend := suffix_of_append hnoCode
  have htarget := target_of_distinct hcode hyesLabel
  have hcond := cond.code_isStraight o.operatorOrder f
  refine ⟨by simp [executed], ?_⟩
  cases b with
  | true =>
      refine ⟨_, (Leads.ifGoto_taken rfl htarget).executed_append hcond, ?_⟩
      exact .label (.block hyes (.goto (target_of_distinct hcode hend) (.label hk)) hyesCode)
  | false =>
      refine ⟨_, (Leads.ifGoto_passed rfl).executed_append hcond, ?_⟩
      exact .goto (target_of_distinct hcode hnoLabel) (.label (.block hno (.label hk) hnoCode))

/-- The listing at the code of a statement follows the statement. -/
theorem Matches.followed_stmt (ho : o.ifNumbering = .unique) (hcode : DistinctLabels code)
    {s : Stmt} (hs : (s.emit o f).Emits c is c') (hk : Matches o f code k rest)
    (hin : (is ++ rest) <:+ code) (b : Bool) : Followed o f code b (s :: k) (is ++ rest) := by
  cases s with
  | assign target index value => exact followed_assign hs hk b
  | call call => exact followed_call hs hk b
  | ret value => exact followed_ret hs b
  | loop cond body => exact followed_loop hcode hs hk hin b
  | branch cond yes no =>
      cases no with
      | none => exact followed_branch_none ho hcode hs hk hin b
      | some no => exact followed_branch_some ho hcode hs hk hin b

end Statement

/-- From a matching position the listing follows the statements. -/
theorem Matches.followed (ho : o.ifNumbering = .unique) (hcode : DistinctLabels code)
    {k : List Stmt} {rest : List Instruction} (h : Matches o f code k rest) (b : Bool) :
    Followed o f code b k rest := by
  induction h with
  | finish => exact ⟨rfl, .refl []⟩
  | label hk ih => exact ih.silent fun _ _ => .label _
  | goto hl hk ih => exact ih.silent fun _ _ => .goto hl
  | stmt hs hk hin ih => exact followed_stmt ho hcode hs hk hin b

/-! ## Whole runs -/

theorem Leads.pos {b : Bool} {rest rest' : List Instruction} {es : List Event} (hne : es ≠ [])
    {n : Nat} (h : ∀ answers : Nat → Bool, answers 0 = b →
      Process.run (listingStep code) n answers rest = (es, rest')) : 0 < n := by
  apply Nat.pos_of_ne_zero
  rintro rfl
  exact hne (congrArg Prod.fst (h (fun _ => b) rfl)).symm

/-- A number of steps of the statements is a number of steps of the listing, no fewer unless the
statements have stopped before, and both are again at positions that match. -/
theorem Matches.run (ho : o.ifNumbering = .unique) (hcode : DistinctLabels code) (n : Nat)
    (answers : Nat → Bool) {k : List Stmt} {rest : List Instruction} (h : Matches o f code k rest) :
    ∃ m rest', Process.run (listingStep code) m answers rest =
        ((Process.run (statementStep o.operatorOrder f) n answers k).1, rest') ∧
      Matches o f code (Process.run (statementStep o.operatorOrder f) n answers k).2 rest' ∧
      (n ≤ m ∨ (Process.run (statementStep o.operatorOrder f) n answers k).2 = []) := by
  induction n generalizing answers k rest with
  | zero => exact ⟨0, rest, rfl, h, .inl (Nat.le_refl 0)⟩
  | succ n ih =>
      have hstep := h.followed ho hcode (answers 0)
      unfold Followed at hstep
      split at hstep
      · next hs =>
        rw [Process.run, hs]
        exact ⟨0, rest, rfl, h, .inr hstep.1⟩
      · next es k' hs =>
        obtain ⟨hne, rest₁, ⟨m₁, hm₁⟩, hmatch⟩ := hstep
        obtain ⟨m, rest', hrun, hmatch', hle⟩ := ih (answersAfter answers es) hmatch
        have hpos := Leads.pos hne hm₁
        rw [Process.run_succ_of_step hs]
        refine ⟨m₁ + m, rest', ?_, hmatch', hle.imp (fun _ => by omega) id⟩
        rw [Process.run_add, hm₁ answers rfl, hrun]

theorem listingStep_nil (b : Bool) : listingStep code [] b = none := rfl

/-- Where no statement is left, the listing stops without showing anything. -/
theorem Matches.stops_nil (ho : o.ifNumbering = .unique) (hcode : DistinctLabels code)
    {rest : List Instruction} (h : Matches o f code [] rest) (answers : Nat → Bool) :
    Process.Stops (listingStep code) answers rest [] := by
  obtain ⟨-, n, hn⟩ := h.followed ho hcode (answers 0)
  exact ⟨n, hn answers rfl⟩

/-- From a matching position the listing stops as soon as the statements do. -/
theorem Matches.stops (ho : o.ifNumbering = .unique) (hcode : DistinctLabels code)
    {answers : Nat → Bool} {k : List Stmt} {rest : List Instruction} (h : Matches o f code k rest)
    {shown : List Event} (hk : Process.Stops (statementStep o.operatorOrder f) answers k shown) :
    Process.Stops (listingStep code) answers rest shown := by
  obtain ⟨n, hn⟩ := hk
  obtain ⟨m, rest', hrun, hmatch, -⟩ := h.run ho hcode n answers
  rw [hn] at hrun hmatch
  obtain ⟨l, hl⟩ := hmatch.stops_nil ho hcode (answersAfter answers shown)
  refine ⟨m + l, ?_⟩
  rw [Process.run_add, hrun, hl, List.append_nil]

/-- Where the listing has stopped, no statement is left. -/
theorem Matches.eq_nil (ho : o.ifNumbering = .unique) (hcode : DistinctLabels code) {k : List Stmt}
    (h : Matches o f code k []) : k = [] := by
  have hstep := h.followed ho hcode true
  unfold Followed at hstep
  split at hstep
  · exact hstep.1
  · obtain ⟨hne, rest', ⟨n, hn⟩, -⟩ := hstep
    have hnone := hn (fun _ => true) rfl
    rw [Process.run_of_stopped listingStep_nil] at hnone
    exact absurd (congrArg Prod.fst hnone).symm hne

/-- From a matching position the listing and the statements have the same run. -/
theorem Matches.sameRun (ho : o.ifNumbering = .unique) (hcode : DistinctLabels code) {k : List Stmt}
    {rest : List Instruction} (h : Matches o f code k rest) (answers : Nat → Bool) :
    SameRun (statementStep o.operatorOrder f) k (listingStep code) rest answers := by
  refine ⟨fun n => ?_, fun n => ⟨n, ?_⟩, fun shown => ⟨h.stops ho hcode, ?_⟩⟩
  · obtain ⟨m, rest', hrun, -⟩ := h.run ho hcode n answers
    exact ⟨m, congrArg Prod.fst hrun⟩
  · obtain ⟨m, rest', hrun, hmatch, hle | hnil⟩ := h.run ho hcode n answers
    · exact (congrArg Prod.fst hrun) ▸ Process.run_mono hle
    · obtain ⟨l, hl⟩ := h.stops ho hcode ⟨n, Prod.ext rfl hnil⟩
      have hlast := Process.run_add_of_stopped listingStep_nil hl n
      exact (congrArg Prod.fst hlast) ▸ Process.run_mono (Nat.le_add_left n l)
  · rintro ⟨n, hn⟩
    obtain ⟨m, rest', hrun, hmatch, hle | hnil⟩ := h.run ho hcode n answers
    · obtain ⟨l, rfl⟩ := Nat.exists_eq_add_of_le hle
      rw [Process.run_add_of_stopped listingStep_nil hn] at hrun
      obtain ⟨hshown, rfl⟩ := Prod.mk.inj hrun
      exact ⟨n, Prod.ext hshown.symm (hmatch.eq_nil ho hcode)⟩
    · have hstop := h.stops ho hcode ⟨n, Prod.ext rfl hnil⟩
      have heq := hstop.unique listingStep_nil ⟨n, hn⟩
      exact ⟨n, Prod.ext heq hnil⟩

/-! ## Compiled classes -/

/-- No label occurs twice in the function of a subroutine. -/
theorem ClassTree.distinctLabels (ho : o.ifNumbering = .unique) {c : ClassTree} {s : Subroutine}
    (h : (c.bodyCode o s).fault = none) :
    DistinctLabels (c.opening s ++ (c.bodyCode o s).items) := by
  have hbetween := (labelsBetween_invariant ho _).block _ (bodyCode_emits h)
  rw [DistinctLabels, labels_function]
  refine List.Pairwise.map _ ?_ (List.Pairwise.and_mem.mp hbetween.nodup)
  rintro l l' ⟨hl, hl', hne⟩ htext
  obtain ⟨stem, n, rfl, -⟩ := hbetween.between l hl
  obtain ⟨stem', n', rfl, -⟩ := hbetween.between l' hl'
  obtain ⟨rfl, rfl⟩ := Label.text_numbered_injective htext
  exact hne rfl

/-- Control flow is preserved by code generation. In the listing of a class that compiles with a
number of its own for every conditional, each function, started behind its line and its prologue,
has the same run as the statements of its subroutine, whatever the answers to the conditions are. -/
theorem ClassTree.functions_sameRun (o : Options) (ho : o.ifNumbering = .unique) (c : ClassTree)
    (hc : (c.output o).fault = none) :
    List.Forall₂
      (fun s fn => ∃ body, fn = c.opening s ++ body ∧ ∀ answers,
        SameRun (statementStep o.operatorOrder (c.frame s)) s.body.block (listingStep fn) body
          answers)
      c.subroutines (functions (c.output o).items) := by
  rw [functions_output hc, List.forall₂_map_right_iff, List.forall₂_same]
  intro s hs
  have hfault := (output_finished hc).2 s hs
  refine ⟨_, rfl, fun answers => ?_⟩
  have hmatch : Matches o (c.frame s) (c.opening s ++ (c.bodyCode o s).items) (s.body.block ++ [])
      ((c.bodyCode o s).items ++ []) := by
    refine .block (bodyCode_emits hfault) .finish ?_
    rw [List.append_nil]
    exact List.suffix_append _ _
  rw [List.append_nil, List.append_nil] at hmatch
  exact hmatch.sameRun ho (distinctLabels ho hfault) answers

/-- A class with one function, which counts its parameter down in a loop and may leave it from a
branch. -/
def countdown : ClassTree :=
  let x : Name := ⟨"x", ⟨0, 1⟩⟩
  let read : Expr := .operand [] (.variable x)
  { name := ⟨"Main", ⟨0, 4⟩⟩
    vars := []
    subroutines := [
      { kind := .function
        returns := none
        name := ⟨"main", ⟨0, 4⟩⟩
        parameters := [⟨.int, x⟩]
        body := ⟨[], [
          .loop read [
            .branch read [.ret none]
              (some [.assign x none (.binary [] (.variable x) .sub (.operand [] (.integer 1)))])],
          .ret none]⟩ }] }

/-- The listing of a loop around a conditional has the run of its statements. -/
theorem countdown_sameRun :
    (countdown.output .standard).fault = none ∧
      List.Forall₂
        (fun s fn => ∃ body, fn = countdown.opening s ++ body ∧ ∀ answers,
          SameRun (statementStep .deferred (countdown.frame s)) s.body.block (listingStep fn) body
            answers)
        countdown.subroutines (functions (countdown.output .standard).items) :=
  ⟨by decide, ClassTree.functions_sameRun .standard rfl countdown (by decide)⟩

end JackCompiler
