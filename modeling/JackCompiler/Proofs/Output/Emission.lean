import JackCompiler.Emit.Declaration

/-!
# What an emitter leaves behind

A step of code generation that is not stopped has emitted instructions and moved the counters.
Emitters are composed of smaller ones, and the relation `Emitter.Emits` is read off the parts: what
a composition emits is what its first part emits followed by what its second part does.

## Implementation notes

The relation speaks of finished steps only. A composition is finished exactly if both parts are, so
nothing is said here about where a stopped step leaves the counters.
-/

namespace JackCompiler

namespace Trail

variable {α : Type}

theorem append_def (a b : Trail α) : a ++ b = a.append b := rfl

/-- A joined trail was not stopped exactly if neither of its parts was. -/
theorem fault_append_eq_none_iff {a b : Trail α} :
    (a ++ b).fault = none ↔ a.fault = none ∧ b.fault = none := by
  rcases a with ⟨xs, _ | e⟩
  · simp [append_def, append]
  · simp [append_def, append]

theorem items_append {a : Trail α} (h : a.fault = none) (b : Trail α) :
    (a ++ b).items = a.items ++ b.items := by
  rcases a with ⟨xs, _ | e⟩
  · rfl
  · cases h

/-- Whatever holds of the items of both parts holds of the items of a joined trail. -/
theorem forall_items_append {a b : Trail α} {p : α → Prop} (ha : ∀ x ∈ a.items, p x)
    (hb : ∀ x ∈ b.items, p x) : ∀ x ∈ (a ++ b).items, p x := by
  rcases a with ⟨xs, _ | e⟩
  · intro x hx
    rcases List.mem_append.mp hx with hx | hx
    · exact ha x hx
    · exact hb x hx
  · exact ha

theorem eq_mk_iff {t : Trail α} {xs : List α} :
    t = ⟨xs, none⟩ ↔ t.fault = none ∧ t.items = xs := by
  rcases t with ⟨items, fault⟩
  simp [and_comm]

end Trail

/-- The counters inside a conditional that found them as they are. -/
def Counters.insideIf (c : Counters) : IfNumbering → Counters
  | .unique => c.increment .conditional
  | .nested => c

namespace Emitter

/-- From given counters an emitter finishes with given instructions and counters. -/
def Emits (e : Emitter) (c : Counters) (code : List Instruction) (c' : Counters) : Prop :=
  e c = (⟨code, none⟩, c')

theorem emits_ofCode_iff {t : Code} {c c' : Counters} {code : List Instruction} :
    (ofCode t).Emits c code c' ↔ (t.fault = none ∧ t.items = code) ∧ c = c' := by
  rw [← Trail.eq_mk_iff]
  exact Prod.mk.injEq _ _ _ _ ▸ Iff.rfl

theorem emits_emit_iff {is : List Instruction} {c c' : Counters} {code : List Instruction} :
    (emit is).Emits c code c' ↔ is = code ∧ c = c' := by
  rw [emit, emits_ofCode_iff]
  simp [Trail.of]

/-- The code of two emitters is joined, whatever the counters are between them. -/
theorem exists_append_fst (a b : Emitter) (c : Counters) :
    ∃ c', ((a ++ b) c).1 = (a c).1 ++ (b c').1 := by
  change ∃ c', (a.append b c).1 = _
  unfold append
  rcases ha : a c with ⟨⟨xs, _ | e⟩, c'⟩
  · exact ⟨c', rfl⟩
  · exact ⟨c, rfl⟩

/-- Whatever its counters, an emitter makes code with a property. -/
def Always (p : Code → Prop) (e : Emitter) : Prop :=
  ∀ c, p (e c).1

namespace Always

variable {p q r : Code → Prop}

theorem ofCode {t : Code} (h : p t) : (Emitter.ofCode t).Always p :=
  fun _ => h

theorem append {a b : Emitter} (hjoin : ∀ s t, p s → q t → r (s ++ t)) (ha : a.Always p)
    (hb : b.Always q) : Always r (a ++ b) := by
  intro c
  obtain ⟨c', happend⟩ := exists_append_fst a b c
  rw [happend]
  exact hjoin _ _ (ha c) (hb c')

theorem withIfNumber {n : IfNumbering} {body : Nat → Emitter} (h : ∀ k, (body k).Always p) :
    (Emitter.withIfNumber n body).Always p := by
  cases n with
  | unique => exact fun c => h _ _
  | nested => exact fun c => h _ c

/-- A statement of a branch is emitted from other counters than elsewhere, at most. -/
theorem inBranch {o : Options} {s : Stmt} {e : Emitter} (h : e.Always p) :
    (Emitter.inBranch o s e).Always p := by
  unfold Emitter.inBranch
  split
  · -- Stepping a counter up and down emits nothing.
    intro c
    obtain ⟨c₁, hbehind⟩ := exists_append_fst (increment .conditional)
      (e ++ decrement .conditional) c
    obtain ⟨c₂, hbefore⟩ := exists_append_fst e (decrement .conditional) c₁
    have hsame : (e c₁).1 ++ (decrement .conditional c₂).1 = (e c₁).1 := Trail.append_of_nil _
    rw [hbehind, hbefore, hsame]
    exact h c₁
  · exact h

end Always

theorem emits_append_iff {a b : Emitter} {c c'' : Counters} {code : List Instruction} :
    (a ++ b).Emits c code c'' ↔
      ∃ xs c' ys, a.Emits c xs c' ∧ b.Emits c' ys c'' ∧ code = xs ++ ys := by
  change a.append b c = _ ↔ _
  unfold append
  rcases ha : a c with ⟨⟨xs, _ | e⟩, c'⟩
  · rcases hb : b c' with ⟨⟨ys, f⟩, d⟩
    constructor
    · intro h
      simp only [hb, Prod.mk.injEq, Trail.mk.injEq] at h
      obtain ⟨⟨rfl, rfl⟩, rfl⟩ := h
      exact ⟨xs, c', ys, ha, hb, rfl⟩
    · rintro ⟨xs', d', ys', h₁, h₂, rfl⟩
      rw [Emits, ha] at h₁
      cases h₁
      rw [Emits, hb] at h₂
      cases h₂
      simp [hb]
  · constructor
    · intro h
      cases h
    · rintro ⟨xs', d', ys', h₁, _⟩
      rw [Emits, ha] at h₁
      cases h₁

theorem emits_withNext_iff {k : Numbered} {body : Nat → Emitter} {c c' : Counters}
    {code : List Instruction} :
    (withNext k body).Emits c code c' ↔ (body (c.get k)).Emits (c.increment k) code c' :=
  Iff.rfl

theorem emits_withIfNumber_iff {n : IfNumbering} {body : Nat → Emitter} {c c' : Counters}
    {code : List Instruction} :
    (withIfNumber n body).Emits c code c' ↔
      (body c.conditionals).Emits (c.insideIf n) code c' := by
  cases n <;> rfl

/-- Under unique numbering a statement of a branch is emitted as anywhere else. -/
theorem inBranch_unique {o : Options} (ho : o.ifNumbering = .unique) (s : Stmt) (e : Emitter) :
    inBranch o s e = e := by
  cases s <;> simp [inBranch, ho]

end Emitter

/-- Under unique numbering a branch is emitted like a block. -/
theorem emitBranch_unique {o : Options} (ho : o.ifNumbering = .unique) (f : Frame)
    (ss : List Stmt) : emitBranch o f ss = emitBlock o f ss := by
  induction ss with
  | nil => rfl
  | cons s ss ih =>
      rw [emitBranch, emitBlock, Emitter.inBranch_unique ho, ih]

/-! ## Statements

What a finished statement has emitted has the shape that its constructor says. -/

namespace Stmt

open Emitter

variable {o : Options} {f : Frame} {cond : Expr} {c c' : Counters} {code : List Instruction}

theorem emits_assign {target : Name} {index : Option Expr} {value : Expr}
    (h : (emit o f (.assign target index value)).Emits c code c') :
    (assignCode o.operatorOrder f target index value).fault = none ∧
      (assignCode o.operatorOrder f target index value).items = code ∧ c = c' :=
  and_assoc.mp (emits_ofCode_iff.mp h)

theorem emits_call {call : Call} (h : (emit o f (.call call)).Emits c code c') :
    (call.code o.operatorOrder f ++ .of [.pop .temp 0]).fault = none ∧
      (call.code o.operatorOrder f ++ .of [.pop .temp 0]).items = code ∧ c = c' :=
  and_assoc.mp (emits_ofCode_iff.mp h)

theorem emits_ret {value : Option Expr} (h : (emit o f (.ret value)).Emits c code c') :
    (returnCode o.operatorOrder f value).fault = none ∧
      (returnCode o.operatorOrder f value).items = code ∧ c = c' :=
  and_assoc.mp (emits_ofCode_iff.mp h)

theorem emits_branch_none {yes : List Stmt}
    (h : (emit o f (.branch cond yes none)).Emits c code c') :
    ∃ ys, (cond.code o.operatorOrder f).fault = none ∧
      (emitBranch o f yes).Emits (c.insideIf o.ifNumbering) ys c' ∧
      code = (cond.code o.operatorOrder f).items ++
        (Instruction.ifGoto (.numbered .ifTrue c.conditionals) ::
          Instruction.goto (.numbered .ifFalse c.conditionals) ::
          Instruction.label (.numbered .ifTrue c.conditionals) ::
          (ys ++ [Instruction.label (.numbered .ifFalse c.conditionals)])) := by
  replace h := emits_withIfNumber_iff.mp h
  simp only [emits_append_iff, emits_ofCode_iff, emits_emit_iff] at h
  obtain ⟨_, _, _, ⟨⟨hcond, rfl⟩, rfl⟩, ⟨_, _, _, ⟨rfl, rfl⟩,
    ⟨ys, _, _, hyes, ⟨rfl, rfl⟩, rfl⟩, rfl⟩, rfl⟩ := h
  exact ⟨ys, hcond, hyes, rfl⟩

theorem emits_branch_some {yes no : List Stmt}
    (h : (emit o f (.branch cond yes (some no))).Emits c code c') :
    ∃ ys d zs, (cond.code o.operatorOrder f).fault = none ∧
      (emitBranch o f yes).Emits (c.insideIf o.ifNumbering) ys d ∧
      (emitBranch o f no).Emits d zs c' ∧
      code = (cond.code o.operatorOrder f).items ++
        (Instruction.ifGoto (.numbered .ifTrue c.conditionals) ::
          Instruction.goto (.numbered .ifFalse c.conditionals) ::
          Instruction.label (.numbered .ifTrue c.conditionals) ::
          (ys ++ (Instruction.goto (.numbered .ifEnd c.conditionals) ::
            Instruction.label (.numbered .ifFalse c.conditionals) ::
            (zs ++ [Instruction.label (.numbered .ifEnd c.conditionals)])))) := by
  replace h := emits_withIfNumber_iff.mp h
  simp only [emits_append_iff, emits_ofCode_iff, emits_emit_iff] at h
  obtain ⟨_, _, _, ⟨⟨hcond, rfl⟩, rfl⟩, ⟨_, _, _, ⟨rfl, rfl⟩, ⟨ys, d, _, hyes,
    ⟨_, _, _, ⟨rfl, rfl⟩, ⟨zs, _, _, hno, ⟨rfl, rfl⟩, rfl⟩, rfl⟩, rfl⟩, rfl⟩, rfl⟩ := h
  exact ⟨ys, d, zs, hcond, hyes, hno, rfl⟩

theorem emits_loop {body : List Stmt} (h : (emit o f (.loop cond body)).Emits c code c') :
    ∃ ys, (cond.code o.operatorOrder f).fault = none ∧
      (emitBlock o f body).Emits (c.increment .loop) ys c' ∧
      code = Instruction.label (.numbered .whileStart c.loops) ::
        ((cond.code o.operatorOrder f).items ++ (Instruction.command .not ::
          Instruction.ifGoto (.numbered .whileEnd c.loops) :: (ys ++
            [Instruction.goto (.numbered .whileStart c.loops),
              Instruction.label (.numbered .whileEnd c.loops)]))) := by
  rw [emit, emits_withNext_iff] at h
  simp only [emits_append_iff, emits_ofCode_iff, emits_emit_iff] at h
  obtain ⟨_, _, _, ⟨rfl, rfl⟩, ⟨_, _, _, ⟨⟨hcond, rfl⟩, rfl⟩, ⟨_, _, _, ⟨rfl, rfl⟩,
    ⟨ys, _, _, hbody, ⟨rfl, rfl⟩, rfl⟩, rfl⟩, rfl⟩, rfl⟩ := h
  exact ⟨ys, hcond, hbody, rfl⟩

end Stmt

end JackCompiler
