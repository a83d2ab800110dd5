import JackCompiler.Proofs.Evaluation.Reference
import JackCompiler.Proofs.Output.Emission

/-!
# Code computes what the tree means

Running a piece of code takes some words from the top of the stack and has the effect of a
computation. Pieces are put together as computations are: if one piece gives a value, the next one
finds it on top of the stack. The code of an expression takes nothing and gives its value.

## Implementation notes

`Reaches` fixes the activation and leaves the second pointer cell and the temporary cells open,
since nested accesses to arrays overwrite them.
-/

namespace JackCompiler

variable {W : Type} [DecidableEq W] (m : Meaning W) {a : Activation W}

/-- Wherever the given words are on top of the stack, running a piece of code replaces them, and the
activation, by what comes out of a computation, and leaves the shared memory of the computation. -/
def Reaches (a : Activation W) (us : List W) (code : List Instruction) {β : Type}
    (out : β → List W × Activation W) (r : Effect W β) : Prop :=
  ∀ σ S, σ.activation = a → σ.stack = us ++ S → ∃ b g w τ, r σ.globals = some (b, g) ∧
    m.run code σ = some ⟨(out b).1 ++ S, (out b).2, g, w, τ⟩

/-- Running a piece of code puts the value of a computation in the place of the given words. -/
abbrev Yields (a : Activation W) (us : List W) (code : List Instruction) (r : Effect W W) : Prop :=
  Reaches m a us code (fun v => ([v], a)) r

/-- Running a piece of code only takes the given words away and changes the memory. -/
abbrev Performs (a : Activation W) (us : List W) (code : List Instruction)
    (r : Effect W (Activation W)) : Prop :=
  Reaches m a us code (fun a' => ([], a')) r

variable {m}

/-- A piece of code goes on with the value of the one before it on top of the stack. -/
theorem Yields.bind {β : Type} {out : β → List W × Activation W} {us ws : List W}
    {xs ys : List Instruction} {r : Effect W W} {s : W → Effect W β} (hr : Yields m a us xs r)
    (hs : ∀ v, Reaches m a (v :: ws) ys out (s v)) :
    Reaches m a (us ++ ws) (xs ++ ys) out (r >>= s) := by
  intro σ S ha hstack
  obtain ⟨v, g, w, τ, hv, hrun⟩ := hr σ (ws ++ S) ha (by rw [hstack, List.append_assoc])
  obtain ⟨b, g', w', τ', hb, hrun'⟩ := hs v ⟨v :: (ws ++ S), a, g, w, τ⟩ S rfl rfl
  refine ⟨b, g', w', τ', ?_, ?_⟩
  · change (r σ.globals).bind (fun p => s p.1 p.2) = _
    rw [hv]
    exact hb
  · rw [m.run_append, hrun]
    exact hrun'

/-- A piece of code goes on with a value that needs no computation. -/
theorem Yields.before {β : Type} {out : β → List W × Activation W} {us ws : List W}
    {xs ys : List Instruction} {v : W} {s : Effect W β} (hv : Yields m a us xs (pure v))
    (hs : Reaches m a (v :: ws) ys out s) : Reaches m a (us ++ ws) (xs ++ ys) out s := by
  intro σ S ha hstack
  obtain ⟨_, _, w, τ, ⟨⟩, hrun⟩ := hv σ (ws ++ S) ha (by rw [hstack, List.append_assoc])
  obtain ⟨b, g, w', τ', hb, hrun'⟩ := hs ⟨v :: (ws ++ S), a, σ.globals, w, τ⟩ S rfl rfl
  refine ⟨b, g, w', τ', hb, ?_⟩
  rw [m.run_append, hrun]
  exact hrun'

/-- A single instruction with a known effect. -/
theorem Reaches.step {β : Type} {out : β → List W × Activation W} {us : List W}
    {code : List Instruction} {r : Effect W β}
    (h : ∀ S g w τ, ∃ b g' w' τ', r g = some (b, g') ∧
      m.run code ⟨us ++ S, a, g, w, τ⟩ = some ⟨(out b).1 ++ S, (out b).2, g', w', τ'⟩) :
    Reaches m a us code out r := by
  rintro ⟨stack, a', g, w, τ⟩ S rfl rfl
  exact h S g w τ

/-! ## Single instructions -/

theorem Yields.constant (i : UInt16) :
    Yields m a [] [.push .constant i] (pure (m.constant i)) :=
  .step fun _ g w τ => ⟨_, g, w, τ, rfl, rfl⟩

theorem Yields.this : Yields m a [] [.push .pointer 0] (pure a.this) :=
  .step fun _ g w τ => ⟨_, g, w, τ, rfl, rfl⟩

theorem Yields.variable (v : Variable) :
    Yields m a [] [.push v.kind.segment v.index] (m.value a v) := by
  rcases v with ⟨name, type, kind, index⟩
  cases kind <;> exact .step fun _ g w τ => ⟨_, g, w, τ, rfl, rfl⟩

theorem Yields.unary (op : UnaryOp) (x : W) :
    Yields m a [x] [op.instruction] (pure (m.unary op x)) :=
  .step fun S g w τ => ⟨_, g, w, τ, rfl, m.run_unary op x S a g w τ⟩

theorem Yields.binary (op : BinaryOp) (x y : W) :
    Yields m a [y, x] [op.instruction] (pure (m.binary op x y)) := by
  refine .step fun S g w τ => ?_
  obtain ⟨τ', hrun⟩ := m.run_binary op x y S a g w τ
  exact ⟨_, g, w, τ', rfl, hrun⟩

theorem Yields.call (name : String) {us args : List W} {n : Nat} (hus : us = args.reverse)
    (hn : args.length = n) : Yields m a us [.call name n] (m.calling name args) := by
  subst hus hn
  refine .step fun S g w τ => ?_
  obtain ⟨τ', hrun⟩ := m.run_call name args S a g w τ
  exact ⟨_, _, w, τ', rfl, hrun⟩

/-- An element is read through the second pointer cell. -/
theorem Yields.load (address : W) :
    Yields m a [address] [.pop .pointer 1, .push .that 0] (Meaning.load address) :=
  .step fun _ g _ τ => ⟨_, g, address, τ, rfl, rfl⟩

theorem Performs.setVariable (v : Variable) (x : W) :
    Performs m a [x] [.pop v.kind.segment v.index] (m.setVariable a v x) := by
  rcases v with ⟨name, type, kind, index⟩
  cases kind <;> exact .step fun _ _ w τ => ⟨_, _, w, τ, rfl, rfl⟩

/-- An element is set through the second pointer cell, with its value in a temporary cell while the
pointer is set. -/
theorem Performs.store (address x : W) :
    Performs m a [x, address] [.pop .temp 0, .pop .pointer 1, .push .temp 0, .pop .that 0]
      (fun g => some (a, g.store address x)) := by
  refine .step fun S g w τ => ⟨a, _, address, Function.update τ 0 x, rfl, ?_⟩
  simp [Meaning.run_cons, Meaning.step, Meaning.read, Meaning.write]

/-- A word that is not used is put into a temporary cell. -/
theorem Reaches.discard (x : W) : Reaches m a [x] [.pop .temp 0] (fun _ => ([], a)) (pure x) :=
  .step fun _ g w _ => ⟨x, g, w, _, rfl, rfl⟩

/-! ## Expressions -/

theorem Yields.unaries (ops : List UnaryOp) (x : W) :
    Yields m a [x] (unaryCode ops) (pure (m.applyAll ops x)) := by
  induction ops with
  | nil => exact .step fun _ g w τ => ⟨x, g, w, τ, rfl, rfl⟩
  | cons op ops ih =>
      have hcode : unaryCode (op :: ops) = unaryCode ops ++ [op.instruction] := by
        simp [unaryCode]
      rw [hcode]
      exact ih.before (Yields.unary op _)

theorem WordConstant.code_yields (c : WordConstant) :
    Yields m a [] c.code (pure (m.word a c)) := by
  cases c with
  | true => exact (Yields.constant 0).before (Yields.unary .not _)
  | false | null => exact Yields.constant 0
  | this => exact Yields.this

/-- Appending characters to a string, one call for each. -/
theorem Yields.characters (cs : List Char) (s : W) :
    Yields m a [s]
      (cs.flatMap fun c => [pushConstant c.toNat, .call "String.appendChar" 2])
      (cs.foldlM m.withChar s) := by
  induction cs generalizing s with
  | nil => exact .step fun _ g w τ => ⟨s, g, w, τ, rfl, rfl⟩
  | cons c cs ih =>
      have hchar : Yields m a [s] [pushConstant c.toNat, .call "String.appendChar" 2]
          (m.withChar s c) :=
        (Yields.constant (UInt16.ofNat c.toNat)).before (Yields.call _ rfl rfl)
      rw [List.flatMap_cons, List.foldlM_cons]
      exact hchar.bind fun v => ih v

theorem textCode_yields {contents : String} {span : Span}
    (h : (textCode contents span).fault = none) :
    Yields m a [] (textCode contents span).items (m.text contents) := by
  unfold textCode at h ⊢
  dsimp only at h ⊢
  split at h
  · cases h
  · split at h
    · cases h
    · rename_i hlong
      rw [if_neg hlong]
      have hnew : ∀ n, Yields m a [n] [.call "String.new" 1] (m.calling "String.new" [n]) :=
        fun n => Yields.call _ rfl rfl
      apply (Yields.constant (UInt16.ofNat contents.toList.length)).before
      exact (hnew _).bind fun s => Yields.characters contents.toList s

theorem Frame.withCell_finished {f : Frame} {n : Name} {code : Segment → UInt16 → Code}
    (h : (f.withCell n code).fault = none) :
    ∃ v, f.lookup? n.text = some v ∧ f.withCell n code = code v.kind.segment v.index := by
  unfold Frame.withCell at h ⊢
  rcases hv : f.lookup? n.text with _ | v
  · rw [hv] at h
    cases h
  · exact ⟨v, rfl, rfl⟩

/-- Code that is followed by more code gives its value to it. -/
theorem Yields.append {β : Type} {out : β → List W × Activation W} {ws : List W} {xs ys : Code}
    {r : Effect W W} {s : W → Effect W β} (h : (xs ++ ys).fault = none)
    (hr : xs.fault = none → Yields m a [] xs.items r)
    (hs : ys.fault = none → ∀ v, Reaches m a (v :: ws) ys.items out (s v)) :
    Reaches m a ws (xs ++ ys).items out (r >>= s) := by
  obtain ⟨hxs, hys⟩ := Trail.fault_append_eq_none_iff.mp h
  rw [Trail.items_append hxs]
  exact (hr hxs).bind (hs hys)

mutual

/-- The code of an expression gives the value of the expression. -/
theorem Expr.code_yields (order : OperatorOrder) (f : Frame) :
    (e : Expr) → (e.code order f).fault = none →
    Yields m a [] (e.code order f).items (e.eval m order f a)
  | .operand unary t, h => by
      apply Yields.append h (t.code_yields order f)
      intro _ v
      exact Yields.unaries unary v
  | .binary unary t op rest, h => by
      cases order with
      | deferred =>
          rw [Expr.code_deferred_binary] at h ⊢
          apply Yields.append h (t.code_yields .deferred f)
          intro h v
          apply Yields.append h (rest.code_yields .deferred f)
          intro _ w
          exact (Yields.binary op v w).before (Yields.unaries unary _)
      | leftToRight =>
          apply Yields.append h (t.code_yields .leftToRight f)
          intro h v
          have hrest := (Trail.fault_append_eq_none_iff.mp h).2
          apply (Yields.unaries unary v).before
          exact rest.codeAfter_yields .leftToRight f op _ hrest
termination_by structural e => e

/-- The code of the rest of a row finds the value of what stands before it on the stack. -/
theorem Expr.codeAfter_yields (order : OperatorOrder) (f : Frame) (op : BinaryOp) (acc : W) :
    (e : Expr) → (e.codeAfter order f op).fault = none →
    Yields m a [acc] (e.codeAfter order f op).items (e.evalAfter m order f a op acc)
  | .operand unary t, h => by
      apply Yields.append h (t.code_yields order f)
      intro _ v
      exact (Yields.unaries unary v).before (Yields.binary op acc _)
  | .binary unary t op' rest, h => by
      apply Yields.append h (t.code_yields order f)
      intro h v
      have hrest := (Trail.fault_append_eq_none_iff.mp h).2
      have hop : Yields m a [v, acc] (unaryCode unary ++ [op.instruction])
          (pure (m.binary op acc (m.applyAll unary v))) :=
        (Yields.unaries unary v).before (Yields.binary op acc _)
      exact hop.before (rest.codeAfter_yields order f op' _ hrest)
termination_by structural e => e

theorem Term.code_yields (order : OperatorOrder) (f : Frame) :
    (t : Term) → (t.code order f).fault = none →
    Yields m a [] (t.code order f).items (t.eval m order f a)
  | .integer value, _ => Yields.constant value
  | .text contents span, h => textCode_yields h
  | .word constant, _ => constant.code_yields
  | .variable n, h => by
      obtain ⟨v, hv, hcode⟩ := Frame.withCell_finished h
      rw [Term.code, hcode, Term.eval, Meaning.named, hv]
      exact Yields.variable v
  | .element array index, h => by
      obtain ⟨v, hv, hcode⟩ := Frame.withCell_finished h
      rw [Term.code, hcode] at h ⊢
      rw [Term.eval, Meaning.named, hv]
      apply Yields.append h (index.code_yields order f)
      intro _ i
      apply (Yields.variable v).bind
      intro base
      exact (Yields.binary .add i base).before (Yields.load _)
  | .call c, h => c.code_yields order f h
  | .paren inner, h => inner.code_yields order f h
termination_by structural t => t

theorem Call.code_yields (order : OperatorOrder) (f : Frame) :
    (c : Call) → (c.code order f).fault = none →
    Yields m a [] (c.code order f).items (c.eval m order f a)
  | .mk none n args, h => by
      have hargs := (Trail.fault_append_eq_none_iff.mp h).2
      apply Yields.this.before
      apply argsCode_yields order f args [a.this] hargs
      intro vs hlength
      exact Yields.call _ List.reverse_cons.symm (congrArg (· + 1) hlength)
  | .mk (some receiver) n args, h => by
      rw [Call.code] at h ⊢
      rw [Call.eval]
      rcases hv : f.lookup? receiver.text with _ | v
      · simp only [hv] at h ⊢
        apply argsCode_yields order f args [] h
        intro vs hlength
        exact Yields.call _ (List.append_nil _) hlength
      · simp only [hv] at h ⊢
        have hargs := (Trail.fault_append_eq_none_iff.mp h).2
        apply (Yields.variable v).bind
        intro object
        apply argsCode_yields order f args [object] hargs
        intro vs hlength
        exact Yields.call _ List.reverse_cons.symm (congrArg (· + 1) hlength)
termination_by structural c => c

/-- The code of arguments leaves all their values to what comes after it. -/
theorem argsCode_yields (order : OperatorOrder) (f : Frame) :
    (es : List Expr) → (ws : List W) → {last : Code} → {s : List W → Effect W W} →
    (argsCode order f es ++ last).fault = none →
    (∀ vs, vs.length = es.length → Yields m a (vs.reverse ++ ws) last.items (s vs)) →
    Yields m a ws (argsCode order f es ++ last).items (evalArgs m order f a es >>= s)
  | [], _, _, _, _, hs => hs [] rfl
  | e :: es, ws, last, s, h, hs => by
      rw [argsCode, Trail.append_assoc] at h ⊢
      rw [evalArgs, bind_assoc]
      apply Yields.append h (e.code_yields order f)
      intro h v
      rw [bind_assoc]
      apply argsCode_yields order f es (v :: ws) h
      intro vs hlength
      have hlast := hs (v :: vs) (congrArg (· + 1) hlength)
      rw [List.reverse_cons, List.append_assoc] at hlast
      exact hlast
termination_by structural es => es

end

/-! ## Assignments and calls -/

/-- The code of an assignment has the effect of the assignment. -/
theorem assignCode_performs {order : OperatorOrder} {f : Frame} {target : Name}
    {index : Option Expr} {value : Expr}
    (h : (assignCode order f target index value).fault = none) :
    Performs m a [] (assignCode order f target index value).items
      (assignEffect m order f a target index value) := by
  obtain ⟨v, hv, hcode⟩ := Frame.withCell_finished h
  rw [assignCode, hcode] at h ⊢
  unfold assignEffect
  rw [hv]
  cases index with
  | none =>
      apply Yields.append h (value.code_yields order f)
      intro _ x
      exact Performs.setVariable v x
  | some index =>
      apply Yields.append h (index.code_yields order f)
      intro h i
      have hvalue := (Trail.fault_append_eq_none_iff.mp h).2
      have haddress : ∀ base, Yields m a [base, i] [.command .add]
          (pure (m.binary .add i base)) := fun base => Yields.binary .add i base
      rw [Trail.items_append rfl]
      apply (Yields.variable v).bind
      intro base
      apply (haddress base).before
      exact Yields.append hvalue (value.code_yields order f) fun _ x => Performs.store _ x

/-- The code of a call whose result is not used leaves the stack as it was. -/
theorem callCode_discards {order : OperatorOrder} {f : Frame} {c : Call}
    (h : (c.code order f ++ .of [.pop .temp 0]).fault = none) :
    Reaches m a [] (c.code order f ++ .of [.pop .temp 0]).items (fun _ => ([], a))
      (c.eval m order f a) := by
  rw [← bind_pure (c.eval m order f a)]
  exact Yields.append h (c.code_yields order f) fun _ v => Reaches.discard v

end JackCompiler
