import JackCompiler.Proofs.Output.Functions

/-!
# Runs of statements and runs of listings

Both sides of code generation can be run without looking at any values, as long as somebody answers
the conditions. A run of statements goes from statement to statement and shows the block of
instructions of each; a run of a listing goes from instruction to instruction and follows its jumps
by name. Each run shows the instructions it executes and the answers it takes, in order, and may go
on for ever.

## Implementation notes

A run is a process that is stepped with the next answer at hand and says by what it shows whether it
took that answer. The state of a run of statements is the list of statements still to be run, that
of a run of a listing the instructions from its position on; either has stopped when its list is
empty. A jump without a target is stuck, which is not the same as having stopped.
-/

namespace JackCompiler

/-- What a run shows: an instruction that it executes, or an answer that it takes. -/
inductive Event where
  | execute (i : Instruction)
  | answer (b : Bool)
deriving DecidableEq, Repr

/-- An event that takes an answer. -/
def Event.isAnswer : Event → Bool
  | execute _ => false
  | answer _ => true

/-- One step of a process, given the next answer: what it shows and where it is then. There is no
step where a process has stopped or is stuck. -/
abbrev Process (α : Type) := List α → Bool → Option (List Event × List α)

/-- The answers left after some of them have been shown. -/
def answersAfter (answers : Nat → Bool) (shown : List Event) : Nat → Bool :=
  fun i => answers (i + shown.countP Event.isAnswer)

namespace Process

variable {α : Type} (p : Process α)

/-- What a process shows in at most a number of steps, and where it is then. -/
def run : Nat → (Nat → Bool) → List α → List Event × List α
  | 0, _, s => ([], s)
  | n + 1, answers, s =>
      match p s (answers 0) with
      | none => ([], s)
      | some (es, s') =>
          let (fs, s'') := run n (answersAfter answers es) s'
          (es ++ fs, s'')

/-- A process stops after showing some events. -/
def Stops (answers : Nat → Bool) (s : List α) (shown : List Event) : Prop :=
  ∃ n, p.run n answers s = (shown, [])

end Process

/-- Two processes show the same, step by step of the first: each of its steps is reached by the
second one exactly, and nothing else is ever shown. They stop together or not at all. -/
structure SameRun {α β : Type} (p : Process α) (s : List α) (q : Process β) (t : List β)
    (answers : Nat → Bool) : Prop where
  reached : ∀ n, ∃ m, (q.run m answers t).1 = (p.run n answers s).1
  covered : ∀ m, ∃ n, (q.run m answers t).1 <+: (p.run n answers s).1
  stops : ∀ shown, p.Stops answers s shown ↔ q.Stops answers t shown

/-! ## Runs of statements -/

/-- The straight-line instructions of a block, as a run shows them. -/
def executed (code : List Instruction) : List Event :=
  code.map .execute

/-- One step of running statements. An assignment, a call and a return show their own block, and a
return is the last step. A conditional shows the block of its condition and goes on with the branch
that the answer chooses. A loop shows the block of its condition, which ends with a negation, and
goes on with its body and itself again, or with what follows it. -/
def statementStep (order : OperatorOrder) (f : Frame) : Process Stmt
  | [], _ => none
  | .assign target index value :: k, _ =>
      some (executed (assignCode order f target index value).items, k)
  | .call c :: k, _ => some (executed ((c.code order f).items ++ [.pop .temp 0]), k)
  | .ret value :: _, _ => some (executed (returnCode order f value).items, [])
  | .branch cond yes no :: k, b =>
      some (executed (cond.code order f).items ++ [.answer b],
        (if b then yes else no.getD []) ++ k)
  | .loop cond body :: k, b =>
      some (executed ((cond.code order f).items ++ [.command .not]) ++ [.answer b],
        if b then body ++ .loop cond body :: k else k)

/-! ## Runs of listings -/

/-- The part of a listing from the first label of a given name on. -/
def target (name : String) : List Instruction → Option (List Instruction)
  | [] => none
  | i :: is => if i.label?.any (·.text == name) then some (i :: is) else target name is

/-- Whether a conditional jump is taken. The jump out of a loop follows a negation, so it is taken
when the answer to the condition is no; any other is taken when it is yes. -/
def Label.taken : Label → Bool → Bool
  | .numbered .whileEnd _, b => !b
  | _, b => b

/-- One step of running a listing, at the instructions from a position on. -/
def listingStep (code : List Instruction) : Process Instruction
  | [], _ => none
  | .label _ :: rest, _ => some ([], rest)
  | .goto l :: _, _ => (target l.text code).map fun rest => ([], rest)
  | .ifGoto l :: rest, b =>
      if l.taken b then (target l.text code).map fun rest => ([.answer b], rest)
      else some ([.answer b], rest)
  | .ret :: _, _ => some ([.execute .ret], [])
  | .function .. :: _, _ => none
  | i :: rest, _ => some ([.execute i], rest)

/-! ## Laws of runs -/

namespace Process

variable {α : Type} {p : Process α} {answers : Nat → Bool} {s : List α}

theorem answersAfter_nil (answers : Nat → Bool) : answersAfter answers [] = answers := rfl

theorem run_succ_of_step {n : Nat} {es : List Event} {s' : List α}
    (h : p s (answers 0) = some (es, s')) :
    p.run (n + 1) answers s =
      (es ++ (p.run n (answersAfter answers es) s').1,
        (p.run n (answersAfter answers es) s').2) := by
  rw [run, h]

theorem run_of_stopped (h : ∀ b, p s b = none) (n : Nat) : p.run n answers s = ([], s) := by
  cases n with
  | zero => rfl
  | succ n => rw [run, h]

theorem answersAfter_append (es fs : List Event) :
    answersAfter answers (es ++ fs) = answersAfter (answersAfter answers es) fs := by
  funext i
  simp only [answersAfter, List.countP_append]
  congr 1
  omega

/-- A run of some steps goes on from where a shorter one was. -/
theorem run_add (m n : Nat) :
    p.run (m + n) answers s =
      ((p.run m answers s).1 ++
          (p.run n (answersAfter answers (p.run m answers s).1) (p.run m answers s).2).1,
        (p.run n (answersAfter answers (p.run m answers s).1) (p.run m answers s).2).2) := by
  induction m generalizing answers s with
  | zero => rw [Nat.zero_add]; rfl
  | succ m ih =>
      rw [Nat.succ_add, run]
      rcases hp : p s (answers 0) with _ | ⟨es, s'⟩
      · simp only [run, hp]
        cases n with
        | zero => rfl
        | succ n => simp [run, hp, answersAfter_nil]
      · simp only [run, hp, ih, answersAfter_append, List.append_assoc]

/-- More steps show more. -/
theorem run_mono {m n : Nat} (h : m ≤ n) : (p.run m answers s).1 <+: (p.run n answers s).1 := by
  obtain ⟨k, rfl⟩ := Nat.exists_eq_add_of_le h
  rw [run_add]
  exact List.prefix_append _ _

/-- Where a process has stopped, more steps change nothing. -/
theorem run_add_of_stopped {m : Nat} {shown : List Event} (hp : ∀ b, p [] b = none)
    (h : p.run m answers s = (shown, [])) (n : Nat) : p.run (m + n) answers s = (shown, []) := by
  rw [run_add, h]
  simp [run_of_stopped hp]

/-- A process stops in one way only. -/
theorem Stops.unique {shown shown' : List Event} (hp : ∀ b, p [] b = none)
    (h : p.Stops answers s shown) (h' : p.Stops answers s shown') : shown = shown' := by
  obtain ⟨m, hm⟩ := h
  obtain ⟨n, hn⟩ := h'
  have h₁ := run_add_of_stopped hp hm n
  have h₂ := run_add_of_stopped hp hn m
  rw [Nat.add_comm, h₂] at h₁
  exact (congrArg Prod.fst h₁).symm

end Process

end JackCompiler
