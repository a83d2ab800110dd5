import JackCompiler.Proofs.Evaluation.Correctness
import JackCompiler.Proofs.Output.Pieces

/-!
# Straight-line code of a class

In the listing of a class that compiles, every expression, every assignment and every statement that
calls is a piece of straight-line code that computes what the tree means, from every state of the
machine and whatever the operators and the calls do.
-/

namespace JackCompiler

variable {W : Type} [DecidableEq W]

theorem Reaches.from_state {m : Meaning W} {β : Type} {code : List Instruction} {σ : Machine W}
    {out : β → List W × Activation W} {r : Effect W β} (h : Reaches m σ.activation [] code out r) :
    ∃ b g w τ, r σ.globals = some (b, g) ∧
      m.run code σ = some ⟨(out b).1 ++ σ.stack, (out b).2, g, w, τ⟩ :=
  h σ σ.stack rfl rfl

/-- Straight-line code computes what the tree means. In the listing of a class that compiles, the
code of an expression leaves the value of the expression on top of the stack, an assignment stores
what it should, and a statement that calls keeps the stack. The shared memory is the one that the
reference evaluation ends with, and only the second pointer cell and the temporary cells may hold
anything. -/
theorem ClassTree.straightLine_computes (o : Options) (c : ClassTree)
    (hc : (c.output o).fault = none) (m : Meaning W) :
    ∀ s ∈ c.subroutines,
      (∀ e ∈ s.exprs, ∃ code, e.code o.operatorOrder (c.frame s) = .of code ∧
        code <:+: (c.output o).items ∧ ∀ σ : Machine W, ∃ v g w τ,
          e.eval m o.operatorOrder (c.frame s) σ.activation σ.globals = some (v, g) ∧
          m.run code σ = some ⟨v :: σ.stack, σ.activation, g, w, τ⟩) ∧
      (∀ target index value, Stmt.assign target index value ∈ s.stmts → ∃ code,
        assignCode o.operatorOrder (c.frame s) target index value = .of code ∧
        code <:+: (c.output o).items ∧ ∀ σ : Machine W, ∃ a g w τ,
          assignEffect m o.operatorOrder (c.frame s) σ.activation target index value σ.globals =
            some (a, g) ∧
          m.run code σ = some ⟨σ.stack, a, g, w, τ⟩) ∧
      (∀ call, Stmt.call call ∈ s.stmts → ∃ code,
        call.code o.operatorOrder (c.frame s) ++ .of [.pop .temp 0] = .of code ∧
        code <:+: (c.output o).items ∧ ∀ σ : Machine W, ∃ v g w τ,
          call.eval m o.operatorOrder (c.frame s) σ.activation σ.globals = some (v, g) ∧
          m.run code σ = some ⟨σ.stack, σ.activation, g, w, τ⟩) := by
  intro s hs
  have hholds : ∀ {x}, x ∈ s.stmts → Emitter.Holds o (c.frame s) (c.output o).items x :=
    fun hx => stmts_hold hc hs hx
  refine ⟨fun e he => ?_, fun target index value hx => ?_, fun call hx => ?_⟩
  · obtain ⟨x, hx, he⟩ := List.mem_flatMap.mp he
    obtain ⟨_, is, _, hemits, his⟩ := hholds hx
    obtain ⟨hfault, hitems⟩ := Stmt.exprs_part hemits he rfl
    refine ⟨_, Trail.eq_mk_iff.mpr ⟨hfault, rfl⟩, hitems.trans his, fun σ => ?_⟩
    exact Reaches.from_state (e.code_yields o.operatorOrder (c.frame s) hfault)
  · obtain ⟨_, is, _, hemits, his⟩ := hholds hx
    obtain ⟨hfault, rfl, -⟩ := Stmt.emits_assign hemits
    refine ⟨_, Trail.eq_mk_iff.mpr ⟨hfault, rfl⟩, his, fun σ => ?_⟩
    exact Reaches.from_state (assignCode_performs hfault)
  · obtain ⟨_, is, _, hemits, his⟩ := hholds hx
    obtain ⟨hfault, rfl, -⟩ := Stmt.emits_call hemits
    refine ⟨_, Trail.eq_mk_iff.mpr ⟨hfault, rfl⟩, his, fun σ => ?_⟩
    exact Reaches.from_state (callCode_discards hfault)

/-- Words of sixteen bits, with calls that give zero. -/
def wordMeaning : Meaning UInt16 where
  constant := id
  binary
    | .add, x, y => x + y
    | .sub, x, y => x - y
    | .mul, x, y => x * y
    | .div, x, y => x / y
    | .and, x, y => x &&& y
    | .or, x, y => x ||| y
    | .lt, x, y => if x < y then 65535 else 0
    | .gt, x, y => if x > y then 65535 else 0
    | .eq, x, y => if x = y then 65535 else 0
  unary
    | .neg, x => -x
    | .not, x => ~~~x
  field object i := object + i
  call _ _ g := (0, g)
  scratch _ _ _ temp := temp

-- The row `-7 - 2 - 1` in both orders: deferred operators negate the whole row.
example :
    let row : Expr := .binary [.neg] (.integer 7) .sub
      (.binary [] (.integer 2) .sub (.operand [] (.integer 1)))
    let value order := (row.eval wordMeaning order ⟨"Main", .empty, .empty⟩ ⟨id, id, 0⟩
      ⟨id, id⟩).map Prod.fst
    value .deferred = some (-(7 - (2 - 1))) ∧ value .leftToRight = some (-7 - 2 - 1) := by
  decide

/-- A class with one method, which sets an element of an array at a place that it reads from the
array, to a sum of an element and a product. -/
def nestedAccess : ClassTree :=
  let a : Name := ⟨"a", ⟨0, 1⟩⟩
  let i : Name := ⟨"i", ⟨0, 1⟩⟩
  let element (e : Expr) : Expr := .operand [] (.element a e)
  let index : Expr := .operand [] (.variable i)
  { name := ⟨"Main", ⟨0, 4⟩⟩
    vars := []
    subroutines := [
      { kind := .method
        returns := none
        name := ⟨"main", ⟨0, 4⟩⟩
        parameters := [⟨.object "Array", a⟩, ⟨.int, i⟩]
        body := ⟨[], [
          .assign a (some (element index))
            (.binary [.neg] (.element a index) .add
              (.binary [] (.variable i) .mul (element (element index)))),
          .ret none]⟩ }] }

theorem nestedAccess_computes :
    (nestedAccess.output .standard).fault = none ∧
      ∀ s ∈ nestedAccess.subroutines, ∀ e ∈ s.exprs, ∃ code,
        e.code .deferred (nestedAccess.frame s) = .of code ∧
        code <:+: (nestedAccess.output .standard).items ∧ ∀ σ : Machine UInt16, ∃ v g w τ,
          e.eval wordMeaning .deferred (nestedAccess.frame s) σ.activation σ.globals =
            some (v, g) ∧
          wordMeaning.run code σ = some ⟨v :: σ.stack, σ.activation, g, w, τ⟩ :=
  ⟨by decide, fun s hs =>
    (ClassTree.straightLine_computes .standard nestedAccess (by decide) wordMeaning s hs).1⟩

end JackCompiler
