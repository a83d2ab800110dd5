import JackCompiler.Proofs.Output.Emission
import Mathlib.Data.List.Infix

/-!
# Induction over finished statements

Finished code is put together from the code of its statements, the statements inside others
included. A relation between statements in source order, the counters before them, their code and
the counters after them holds of every finished block once it holds of statements without
statements inside, goes from what stands in a conditional or a loop to the whole, and joins.

## Implementation notes

Under nested numbering a conditional that stands directly in a branch is emitted with its counter
one higher, so the relation has to survive that shift.
-/

namespace JackCompiler

mutual

/-- A statement and those inside it. -/
def Stmt.all : Stmt → List Stmt
  | .branch cond yes none => .branch cond yes none :: blockStmts yes
  | .branch cond yes (some no) => .branch cond yes (some no) :: (blockStmts yes ++ blockStmts no)
  | .loop cond body => .loop cond body :: blockStmts body
  | .assign target index value => [.assign target index value]
  | .call c => [.call c]
  | .ret value => [.ret value]
termination_by structural s => s

/-- The statements of a block and those inside them. -/
def blockStmts : List Stmt → List Stmt
  | [] => []
  | s :: ss => s.all ++ blockStmts ss
termination_by structural ss => ss

end

/-- All statements of a subroutine. -/
def Subroutine.stmts (s : Subroutine) : List Stmt :=
  blockStmts s.body.block

/-! ## Lines of numbered statements -/

/-- The lines of a conditional without a second branch, around the code of its condition and of its
branch. -/
def branchLines (n : Nat) (cond yes : List Instruction) : List Instruction :=
  cond ++ (.ifGoto (.numbered .ifTrue n) :: .goto (.numbered .ifFalse n) ::
    .label (.numbered .ifTrue n) :: (yes ++ [.label (.numbered .ifFalse n)]))

/-- The lines of a conditional with two branches. -/
def branchElseLines (n : Nat) (cond yes no : List Instruction) : List Instruction :=
  cond ++ (.ifGoto (.numbered .ifTrue n) :: .goto (.numbered .ifFalse n) ::
    .label (.numbered .ifTrue n) :: (yes ++ (.goto (.numbered .ifEnd n) ::
      .label (.numbered .ifFalse n) :: (no ++ [.label (.numbered .ifEnd n)]))))

/-- The lines of a loop. -/
def loopLines (n : Nat) (cond body : List Instruction) : List Instruction :=
  .label (.numbered .whileStart n) :: (cond ++ (.command .not :: .ifGoto (.numbered .whileEnd n) ::
    (body ++ [.goto (.numbered .whileStart n), .label (.numbered .whileEnd n)])))

theorem infix_branchLines (n : Nat) (cond ys : List Instruction) :
    ys <:+: branchLines n cond ys :=
  List.infix_append_of_infix_right (List.infix_cons (List.infix_cons (List.infix_cons
    List.infix_append_left)))

theorem infix_branchElseLines (n : Nat) (cond ys zs : List Instruction) :
    ys <:+: branchElseLines n cond ys zs ∧ zs <:+: branchElseLines n cond ys zs := by
  constructor
  · exact List.infix_append_of_infix_right (List.infix_cons (List.infix_cons (List.infix_cons
      List.infix_append_left)))
  · exact List.infix_append_of_infix_right (List.infix_cons (List.infix_cons (List.infix_cons
      (List.infix_append_of_infix_right (List.infix_cons (List.infix_cons
        List.infix_append_left))))))

theorem infix_loopLines (n : Nat) (cond ys : List Instruction) : ys <:+: loopLines n cond ys :=
  List.infix_cons (List.infix_append_of_infix_right (List.infix_cons (List.infix_cons
    List.infix_append_left)))

/-- The counter that a statement takes its number from. -/
def Stmt.numbered? : Stmt → Option Numbered
  | .branch .. => some .conditional
  | .loop .. => some .loop
  | .assign .. | .call _ | .ret _ => none

namespace Emitter

/-- A statement of a branch is emitted as anywhere else, or under nested numbering from a counter
one higher. -/
theorem emits_inBranch_cases {o : Options} {s : Stmt} {e : Emitter} {c c' : Counters}
    {code : List Instruction} (h : (inBranch o s e).Emits c code c') :
    e.Emits c code c' ∨ o.ifNumbering = .nested ∧
      ∃ d, e.Emits (c.increment .conditional) code d ∧ c' = d.decrement .conditional := by
  unfold inBranch at h
  split at h
  · next ho =>
    obtain ⟨_, d, _, hup, hrest, rfl⟩ := emits_append_iff.mp h
    obtain ⟨xs, d', _, he, hdown, rfl⟩ := emits_append_iff.mp hrest
    cases hup
    cases hdown
    exact .inr ⟨ho, d', by simpa using he, rfl⟩
  · exact .inl h

end Emitter

open Emitter

/-! ## Invariants -/

/-- A relation between statements in source order, the counters before them, their code and the
counters after them is an invariant of emission if it goes from parts to the whole. -/
structure EmissionInvariant (o : Options) (f : Frame)
    (P : List Stmt → Counters → List Instruction → Counters → Prop) : Prop where
  nil : ∀ c, P [] c [] c
  append : ∀ {ss ts c d c' xs ys}, P ss c xs d → P ts d ys c' → P (ss ++ ts) c (xs ++ ys) c'
  plain : ∀ {s c code}, s.numbered? = none → (s.emit o f).Emits c code c → P [s] c code c
  branch : ∀ {cond yes c c' ys code}, code = branchLines c.conditionals
      (cond.code o.operatorOrder f).items ys → (cond.code o.operatorOrder f).fault = none →
    ((Stmt.branch cond yes none).emit o f).Emits c code c' →
    P (blockStmts yes) (c.insideIf o.ifNumbering) ys c' →
    P (.branch cond yes none :: blockStmts yes) c code c'
  branchElse : ∀ {cond yes no c d c' ys zs code}, code = branchElseLines c.conditionals
      (cond.code o.operatorOrder f).items ys zs → (cond.code o.operatorOrder f).fault = none →
    ((Stmt.branch cond yes (some no)).emit o f).Emits c code c' →
    P (blockStmts yes) (c.insideIf o.ifNumbering) ys d → P (blockStmts no) d zs c' →
    P (.branch cond yes (some no) :: (blockStmts yes ++ blockStmts no)) c code c'
  loop : ∀ {cond body c c' ys code}, code = loopLines c.loops
      (cond.code o.operatorOrder f).items ys → (cond.code o.operatorOrder f).fault = none →
    ((Stmt.loop cond body).emit o f).Emits c code c' →
    P (blockStmts body) (c.increment .loop) ys c' →
    P (.loop cond body :: blockStmts body) c code c'
  shift : ∀ {ss c code d}, o.ifNumbering = .nested → P ss (c.increment .conditional) code d →
    P ss c code (d.decrement .conditional)

namespace EmissionInvariant

variable {o : Options} {f : Frame}
  {P : List Stmt → Counters → List Instruction → Counters → Prop}

mutual

theorem stmt (h : EmissionInvariant o f P) : (s : Stmt) → {c c' : Counters} →
    {code : List Instruction} → (s.emit o f).Emits c code c' → P s.all c code c'
  | .branch cond yes none, c, c', code, hs => by
      obtain ⟨ys, hcond, hyes, rfl⟩ := Stmt.emits_branch_none hs
      exact h.branch rfl hcond hs (h.branchBlock yes hyes)
  | .branch cond yes (some no), c, c', code, hs => by
      obtain ⟨ys, d, zs, hcond, hyes, hno, rfl⟩ := Stmt.emits_branch_some hs
      exact h.branchElse rfl hcond hs (h.branchBlock yes hyes) (h.branchBlock no hno)
  | .loop cond body, c, c', code, hs => by
      obtain ⟨ys, hcond, hbody, rfl⟩ := Stmt.emits_loop hs
      exact h.loop rfl hcond hs (h.block body hbody)
  | .assign target index value, c, c', code, hs => by
      obtain ⟨-, -, rfl⟩ := Stmt.emits_assign hs
      exact h.plain rfl hs
  | .call call, c, c', code, hs => by
      obtain ⟨-, -, rfl⟩ := Stmt.emits_call hs
      exact h.plain rfl hs
  | .ret value, c, c', code, hs => by
      obtain ⟨-, -, rfl⟩ := Stmt.emits_ret hs
      exact h.plain rfl hs
termination_by structural s => s

/-- What is an invariant of emission holds of every finished block. -/
theorem block (h : EmissionInvariant o f P) : (ss : List Stmt) → {c c' : Counters} →
    {code : List Instruction} → (emitBlock o f ss).Emits c code c' → P (blockStmts ss) c code c'
  | [], c, c', code, hcode => by
      obtain ⟨rfl, rfl⟩ := emits_emit_iff.mp hcode
      exact h.nil c
  | s :: ss, c, c', code, hcode => by
      obtain ⟨xs, d, ys, hs, hss, rfl⟩ := emits_append_iff.mp hcode
      exact h.append (h.stmt s hs) (h.block ss hss)
termination_by structural ss => ss

theorem branchBlock (h : EmissionInvariant o f P) : (ss : List Stmt) → {c c' : Counters} →
    {code : List Instruction} → (emitBranch o f ss).Emits c code c' → P (blockStmts ss) c code c'
  | [], c, c', code, hcode => by
      obtain ⟨rfl, rfl⟩ := emits_emit_iff.mp hcode
      exact h.nil c
  | s :: ss, c, c', code, hcode => by
      obtain ⟨xs, d, ys, hs, hss, rfl⟩ := emits_append_iff.mp hcode
      refine h.append ?_ (h.branchBlock ss hss)
      rcases emits_inBranch_cases hs with hs' | ⟨ho, e, hs', rfl⟩
      · exact h.stmt s hs'
      · exact h.shift ho (h.stmt s hs')
termination_by structural ss => ss

end

end EmissionInvariant

end JackCompiler
