import JackCompiler.Proofs.Declarations.Slots
import JackCompiler.Proofs.Mentions.Places

/-!
# Constants of an output

The integer constants of a source and the lengths and characters of its strings are checked, so the
code of a body pushes no constant that is too large for the machine. The number of fields of a class
is not checked against the largest constant. It is bounded as the number of any variables is, and a
constructor pushes it to ask for memory for its object. So exactly the classes that have a
constructor and more fields than that compile to a constant that the machine does not take.
-/

namespace JackCompiler

namespace Instruction

/-- If the instruction pushes a constant, the machine takes it. -/
def ConstantFits (i : Instruction) : Prop :=
  ∀ n, i = .push .constant n → n.toNat ≤ maxConstant

variable {f : Frame} {ms : List Mention} {i : Instruction}

/-- Numbers that fit are pushed as constants that fit, and an expression pushes no others that do
not. -/
theorem OfExpr.constantFits (h : ∀ n, .number n ∈ ms → n.toNat ≤ maxConstant)
    (hi : OfExpr f ms i) : i.ConstantFits := by
  intro n heq
  cases hi with
  | constant hn =>
      cases heq
      exact hn
  | number hn =>
      cases heq
      exact h n hn
  | @cell x v hv =>
      have hsegment := (Instruction.push.inj heq).1
      cases hkind : v.kind <;> rw [hkind] at hsegment <;> cases hsegment
  | _ => cases heq

theorem OfStmt.constantFits (h : ∀ n, .number n ∈ ms → n.toNat ≤ maxConstant)
    (hi : OfStmt f ms i) : i.ConstantFits := by
  cases hi with
  | expr hi => exact hi.constantFits h
  | _ =>
      intro n heq
      cases heq

end Instruction

/-- The integer constants of a source are in the range that the machine takes. -/
theorem numbers_of_parse {source : String} {tree : ClassTree}
    (h : (parse source).outcome = .ok tree) {s : Subroutine} (hs : s ∈ tree.subroutines)
    {n : UInt16} (hn : .number n ∈ s.mentions) : n.toNat ≤ maxConstant := by
  obtain ⟨-, hwritten⟩ := parse_ok_writtenIn h
  obtain ⟨t, -, hwrites⟩ := (hwritten.mentions s hs).exists_token hn
  cases hwrites with
  | number _ _ hle => exact hle

namespace ClassTree

/-- The statements of a source push no constant that is too large. -/
theorem bodyCode_constantsFit {source : String} {tree : ClassTree}
    (h : (parse source).outcome = .ok tree) (o : Options) {s : Subroutine}
    (hs : s ∈ tree.subroutines) : (tree.bodyCode o s).All Instruction.ConstantFits := by
  have hbody : blockMentions s.body.block ⊆ s.mentions := fun m hm =>
    List.mem_cons_of_mem _ (List.mem_append_right _ hm)
  exact Code.All.mono (emitBlock_ofStmt o _ hbody _) fun i hi =>
    hi.constantFits fun n => numbers_of_parse h hs

variable {o : Options} {c : ClassTree} {s : Subroutine}

/-- Before its body only a constructor pushes a constant, the number of fields of its class. -/
theorem push_mem_opening_iff (hcompiles : (c.output o).fault = none) (hs : s ∈ c.subroutines)
    {n : UInt16} : .push .constant n ∈ c.opening s ↔
      s.kind = .constructor ∧ n.toNat = c.extent s .this := by
  have hfits : c.extent s .this < UInt16.size := by
    have hle := count_scope_le c .field
    rw [scope, Scope.declare_count (output_parts hcompiles).1, Scope.count_empty,
      Nat.zero_add] at hle
    exact Nat.lt_of_le_of_lt hle (by decide)
  have hnumber : pushConstant (c.extent s .this) = .push .constant n ↔
      n.toNat = c.extent s .this := by
    rw [pushConstant, Instruction.push.injEq, ← UInt16.toNat_inj,
      UInt16.toNat_ofNat_of_lt' hfits, eq_comm (b := n.toNat)]
    exact and_iff_right rfl
  rw [opening_eq hcompiles hs, ← hnumber]
  cases s.kind <;> simp [SubroutineKind.prologue, pushConstant, eq_comm]

/-- An output is within the bound exactly if every constructor asks for an object within it. -/
theorem output_constantsFit_iff {source : String} {tree : ClassTree}
    (h : (parse source).outcome = .ok tree) (hcompiles : (tree.output o).fault = none) :
    (tree.output o).All Instruction.ConstantFits ↔
      ∀ s ∈ tree.subroutines, s.kind = .constructor → tree.extent s .this ≤ maxConstant := by
  constructor
  · intro hall s hs hkind
    have hpush : pushConstant (tree.extent s .this) ∈ tree.opening s := by
      rw [opening_eq hcompiles hs, hkind]
      exact List.mem_cons_of_mem _ List.mem_cons_self
    have hn := (push_mem_opening_iff hcompiles hs).mp hpush
    rw [← hn.2]
    refine hall _ ?_ _ rfl
    rw [(output_finished hcompiles).1]
    exact List.mem_flatMap.mpr ⟨s, hs, List.mem_append_left _ hpush⟩
  · intro hfields
    refine output_all fun s hs => ⟨fun i hi n heq => ?_, bodyCode_constantsFit h o hs⟩
    subst heq
    obtain ⟨hkind, hn⟩ := (push_mem_opening_iff hcompiles hs).mp hi
    rw [hn]
    exact hfields s hs hkind

end ClassTree

/-- What was read compiles if it is a class that compiles, and the text is the listing of its
output. -/
theorem Report.compiled_ok_iff {o : Options} {source text : String} {r : Report ClassTree} :
    (r.compiled o source).outcome = .ok text ↔
      ∃ tree, r.outcome = .ok tree ∧ (tree.output o).fault = none ∧
        listing (tree.output o).items = text := by
  unfold compiled
  rcases r with ⟨e | tree, records⟩
  · simp
  · have hfault : (tree.output o).fault = (Generator.new.compile o tree).1.fault := rfl
    cases h : (Generator.new.compile o tree).1.fault with
    | some e => simp [hfault, h]
    | none => simp [h, ClassTree.output, Trail.instructions]

/-- Compiling what was read goes on with the journal of reading it. -/
theorem Report.compiled_records {o : Options} {source : String} {r : Report ClassTree}
    {tree : ClassTree} (h : r.outcome = .ok tree) :
    (r.compiled o source).records = r.records ++ (Generator.new.compile o tree).1.items := by
  unfold compiled
  rcases r with ⟨e | tree, records⟩ <;> cases h
  dsimp only
  cases (Generator.new.compile o tree).1.fault <;> rfl

/-- A source that compiles has a class that compiles, and the text is the listing of its output. -/
theorem compile_ok_iff {o : Options} {source text : String} :
    (compile o source).outcome = .ok text ↔
      ∃ tree, (parse source).outcome = .ok tree ∧ (tree.output o).fault = none ∧
        listing (tree.output o).items = text :=
  Report.compiled_ok_iff

/-- Every constant in the listing of a source that compiles is one that the machine takes, except
for the size of an object of a class with more fields than there are constants. -/
theorem compile_constantsFit_iff {o : Options} {source text : String}
    (h : (compile o source).outcome = .ok text) :
    ∃ tree, (parse source).outcome = .ok tree ∧ listing (tree.output o).items = text ∧
      ((∀ i ∈ (tree.output o).items, i.ConstantFits) ↔
        ∀ s ∈ tree.subroutines, s.kind = .constructor → tree.extent s .this ≤ maxConstant) := by
  obtain ⟨tree, hparse, hcompiles, htext⟩ := compile_ok_iff.mp h
  exact ⟨tree, hparse, htext, ClassTree.output_constantsFit_iff hparse hcompiles⟩

/-- A source with a constructor and with the largest constants that a program can be written with. -/
def constantSource : String :=
  "class A\x7bfield int a,b;constructor A new()\x7bdo B.f(32767,\"az\",true);return this;\x7d\x7d"

theorem constantSource_constantsFit : ∃ text, (compile .standard constantSource).outcome = .ok text ∧
    ∃ tree, (parse constantSource).outcome = .ok tree ∧
      listing (tree.output .standard).items = text ∧
      ((∀ i ∈ (tree.output .standard).items, i.ConstantFits) ↔
        ∀ s ∈ tree.subroutines, s.kind = .constructor → tree.extent s .this ≤ maxConstant) := by
  have hrun : (compile .standard constantSource).outcome.isOk = true := by
    decide +kernel
  rcases h : (compile .standard constantSource).outcome with e | text
  · rw [h] at hrun
    cases hrun
  · exact ⟨text, rfl, compile_constantsFit_iff h⟩

end JackCompiler
