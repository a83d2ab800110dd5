import JackCompiler.Proofs.Output.Straight

/-!
# Depth of the stack

A walk over a listing from its first instruction to its last counts the values on the stack. The walk
fails where an instruction finds fewer values than it takes. It does not follow jumps, so a listing
whose walk succeeds keeps its promise at run time only if control goes from place to place at one and
the same depth. A settled walk fails where that is not so.

## Implementation notes

A return leaves the stack of its subroutine, so whatever it finds, nothing of it is left behind it.
-/

namespace JackCompiler

/-- How many values a command takes. -/
def Command.operands : Command → Nat
  | neg | not => 1
  | add | sub | eq | gt | lt | and | or => 2

namespace Instruction

/-- How many values an instruction takes from the stack. -/
def takes : Instruction → Nat
  | pop .. | ifGoto _ | ret => 1
  | command c => c.operands
  | call _ args => args
  | push .. | label _ | goto _ | function .. => 0

/-- How many values an instruction puts on the stack. -/
def gives : Instruction → Nat
  | push .. | command _ | call .. => 1
  | pop .. | label _ | goto _ | ifGoto _ | function .. | ret => 0

/-- The depth of the stack that an instruction leaves, if there are values enough for it. -/
def leaves (d : Nat) : Instruction → Nat
  | ret => 0
  | i => d - i.takes + i.gives

/-- The depth of the stack after an instruction, unless there are too few values for it. -/
def depthAfter? (d : Nat) (i : Instruction) : Option Nat :=
  if i.takes ≤ d then some (i.leaves d) else none

/-- Control leaves a place, and comes to another, with nothing on the stack. A jump on a condition
finds the condition there, and a return its value. -/
def settledAt (d : Nat) : Instruction → Bool
  | label _ | goto _ => d == 0
  | ifGoto _ | ret => d == 1
  | push .. | pop .. | command _ | call .. | function .. => true

/-- The depth of the stack after an instruction where it is settled. -/
def settledAfter? (d : Nat) (i : Instruction) : Option Nat :=
  if i.settledAt d then i.depthAfter? d else none

end Instruction

/-- The depth of the stack after a listing, unless an instruction of it finds too few values. -/
def depthAfter? (d : Nat) (code : List Instruction) : Option Nat :=
  code.foldlM Instruction.depthAfter? d

/-- The depth of the stack after a listing in which every instruction is settled. -/
def settledAfter? (d : Nat) (code : List Instruction) : Option Nat :=
  code.foldlM Instruction.settledAfter? d

/-! ## Walks -/

section Walks

variable {d d' : Nat} {i : Instruction} {xs ys code : List Instruction}

theorem depthAfter?_append_iff : depthAfter? d (xs ++ ys) = some d' ↔
    ∃ e, depthAfter? d xs = some e ∧ depthAfter? e ys = some d' := by
  simp [depthAfter?, List.foldlM_append, Option.bind_eq_some_iff]

theorem depthAfter?_cons_iff : depthAfter? d (i :: xs) = some d' ↔
    ∃ e, i.depthAfter? d = some e ∧ depthAfter? e xs = some d' := by
  simp [depthAfter?, Option.bind_eq_some_iff]

theorem settledAfter?_append_iff : settledAfter? d (xs ++ ys) = some d' ↔
    ∃ e, settledAfter? d xs = some e ∧ settledAfter? e ys = some d' := by
  simp [settledAfter?, List.foldlM_append, Option.bind_eq_some_iff]

theorem settledAfter?_cons_iff : settledAfter? d (i :: xs) = some d' ↔
    ∃ e, i.settledAfter? d = some e ∧ settledAfter? e xs = some d' := by
  simp [settledAfter?, Option.bind_eq_some_iff]

theorem settledAfter?_nil (d : Nat) : settledAfter? d [] = some d := rfl

theorem Instruction.settledAfter?_eq_some_iff :
    i.settledAfter? d = some d' ↔ i.settledAt d = true ∧ i.depthAfter? d = some d' := by
  rw [settledAfter?]
  split <;> simp [*]

theorem Instruction.takes_le (h : i.depthAfter? d = some d') : i.takes ≤ d := by
  rw [depthAfter?] at h
  split at h
  · assumption
  · cases h

/-- A settled walk is a walk. -/
theorem depthAfter?_of_settledAfter? (h : settledAfter? d code = some d') :
    depthAfter? d code = some d' := by
  induction code generalizing d with
  | nil => exact h
  | cons i is ih =>
      obtain ⟨e, hi, his⟩ := settledAfter?_cons_iff.mp h
      exact depthAfter?_cons_iff.mpr
        ⟨e, (Instruction.settledAfter?_eq_some_iff.mp hi).2, ih his⟩

/-- Wherever a settled walk comes, the next instruction is settled. -/
theorem settledAt_of_settledAfter? (h : settledAfter? d (xs ++ i :: ys) = some d') :
    ∃ e, settledAfter? d xs = some e ∧ i.settledAt e = true := by
  obtain ⟨e, hxs, hrest⟩ := settledAfter?_append_iff.mp h
  obtain ⟨e', hi, -⟩ := settledAfter?_cons_iff.mp hrest
  exact ⟨e, hxs, (Instruction.settledAfter?_eq_some_iff.mp hi).1⟩

/-- Wherever a walk comes, there are values enough for the next instruction. -/
theorem takes_le_of_depthAfter? (h : depthAfter? d (xs ++ i :: ys) = some d') :
    ∃ e, depthAfter? d xs = some e ∧ i.takes ≤ e := by
  obtain ⟨e, hxs, hrest⟩ := depthAfter?_append_iff.mp h
  obtain ⟨e', hi, -⟩ := depthAfter?_cons_iff.mp hrest
  exact ⟨e, hxs, Instruction.takes_le hi⟩

end Walks

/-! ## Straight-line code -/

section Straight

variable {d d' : Nat} {i : Instruction} {code : List Instruction}

theorem Instruction.depthAfter?_of_isStraight (h : i.isStraight = true) (k : Nat) :
    i.depthAfter? (k + i.takes) = some (k + i.gives) := by
  have hleaves : i.leaves (k + i.takes) = k + i.takes - i.takes + i.gives := by
    cases i with
    | ret => cases h
    | _ => rfl
  rw [depthAfter?, if_pos (Nat.le_add_left _ _), hleaves, Nat.add_sub_cancel]

theorem Instruction.settledAfter?_of_isStraight (h : i.isStraight = true) (d : Nat) :
    i.settledAfter? d = i.depthAfter? d := by
  refine if_pos ?_
  cases i with
  | push | pop | command | call => rfl
  | label | goto | ifGoto | function | ret => cases h

/-- Straight-line code does not depend on the values that it does not reach. -/
theorem depthAfter?_add (hcode : ∀ i ∈ code, i.isStraight = true)
    (h : depthAfter? d code = some d') (k : Nat) : depthAfter? (k + d) code = some (k + d') := by
  induction code generalizing d with
  | nil =>
      obtain rfl := Option.some_inj.mp h
      rfl
  | cons i is ih =>
      obtain ⟨e, hi, his⟩ := depthAfter?_cons_iff.mp h
      obtain ⟨hstraight, hcode⟩ := List.forall_mem_cons.mp hcode
      obtain ⟨below, rfl⟩ := Nat.exists_eq_add_of_le' (Instruction.takes_le hi)
      have hstep := Instruction.depthAfter?_of_isStraight hstraight
      obtain rfl := Option.some_inj.mp ((hstep below).symm.trans hi)
      rw [← Nat.add_assoc]
      refine depthAfter?_cons_iff.mpr ⟨_, hstep (k + below), ?_⟩
      rw [Nat.add_assoc]
      exact ih hcode his

end Straight

/-- Code that leaves one value more than it finds, at any depth, and takes only values of its
own. -/
structure LeavesOneValue (code : List Instruction) : Prop where
  raises : ∀ d, depthAfter? d code = some (d + 1)
  own : ∀ pre i post, code = pre ++ i :: post →
    ∃ own, i.takes ≤ own ∧ ∀ d, depthAfter? d pre = some (d + own)

/-- What straight-line code does from an empty stack it does above any values. -/
theorem leavesOneValue_of_straight {code : List Instruction}
    (hcode : ∀ i ∈ code, i.isStraight = true) (h : depthAfter? 0 code = some 1) :
    LeavesOneValue code where
  raises := depthAfter?_add hcode h
  own := by
    rintro pre i post rfl
    obtain ⟨own, hpre, htakes⟩ := takes_le_of_depthAfter? h
    exact ⟨own, htakes, depthAfter?_add (fun j hj => hcode j (List.mem_append_left _ hj)) hpre⟩

end JackCompiler
