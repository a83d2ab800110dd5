import JackCompiler.Grammar.Statement
import JackCompiler.Proofs.Syntax.Expressions

/-!
# Reading statements

A statement is read by the word that begins it. Only a conditional looks past its end, for the
branch that `else` announces.

## Implementation notes

The parts of a statement after its first word are phrases of their own. An optional part is read as
one production, so that a statement is a plain sequence for the rules.
-/

namespace JackCompiler

open Phrase Production

variable {α γ : Type} {n : Nat}

/-! ## Shapes of the grammar -/

theorem bracedPhrase_eq (P : Phrase α) :
    Braced P = (one (.symbol .leftBrace)).bind fun _ => Phrase.bind (Repeated P) fun as =>
      (one (.symbol .rightBrace)).bind fun _ => empty as := by
  ext us as
  constructor
  · rintro ⟨hl, has, hr⟩
    exact one_bind_mk hl (bind_mk has (one_bind_empty_iff.mpr ⟨_, rfl, hr, rfl⟩))
  · intro h
    obtain ⟨l, _, rfl, hl, us, _, as, rfl, has, h⟩ := one_bind_iff.mp h
    obtain ⟨r, rfl, hr, rfl⟩ := one_bind_empty_iff.mp h
    exact .braces hl has hr

/-- The index of an assignment to an element. -/
def indexPhrase : Phrase (Option Expr) :=
  (one (.symbol .leftBracket)).bind fun _ => Phrase.bind IsExpr fun index =>
    (one (.symbol .rightBracket)).bind fun _ => empty (some index)

/-- The second branch of a conditional. -/
def elsePhrase : Phrase (Option (List Stmt)) :=
  (one (.keyword .elseBranch)).bind fun _ => Phrase.bind (Braced IsStmt) fun no => empty (some no)

/-- The value of a return. -/
def valuePhrase : Phrase (Option Expr) :=
  Phrase.bind IsExpr fun value => empty (some value)

/-- What follows the word that begins a statement. -/
def stmtRest : Keyword → Phrase Stmt
  | .letStmt => Phrase.bind IsName fun target => (indexPhrase.orNothing none).bind fun index =>
      (one (.symbol .equals)).bind fun _ => Phrase.bind IsExpr fun value =>
        (one (.symbol .semicolon)).bind fun _ => empty (.assign target index value)
  | .ifStmt => Phrase.bind IsCondition fun cond => Phrase.bind (Braced IsStmt) fun yes =>
      (elsePhrase.orNothing none).bind fun no => empty (.branch cond yes no)
  | .whileStmt => Phrase.bind IsCondition fun cond => Phrase.bind (Braced IsStmt) fun body =>
      empty (.loop cond body)
  | .doStmt => Phrase.bind IsCall fun c => (one (.symbol .semicolon)).bind fun _ => empty (.call c)
  | .returnStmt => (valuePhrase.orNothing none).bind fun value =>
      (one (.symbol .semicolon)).bind fun _ => empty (.ret value)
  | _ => fun _ _ => False

theorem IsStmt.rest {us : List Token} {s : Stmt} (h : IsStmt us s) :
    ∃ t vs k, us = t :: vs ∧ t.kind = .keyword k ∧ stmtRest k vs s := by
  cases h with
  | assign hl hn he hv hs =>
      refine ⟨_, _, .letStmt, rfl, hl, bind_mk hn (orNothing_bind_iff.mpr (.inr ?_))⟩
      exact one_bind_mk he (bind_mk hv (one_bind_empty_iff.mpr ⟨_, rfl, hs, rfl⟩))
  | @assignElement us vs ws l b b' e s _ index _ hl hn hb hi hb' he hv hs =>
      have hindex : indexPhrase (b :: (vs ++ [b'])) (some index) :=
        one_bind_mk hb (bind_mk hi (one_bind_empty_iff.mpr ⟨_, rfl, hb', rfl⟩))
      have hsplit : b :: (vs ++ b' :: e :: (ws ++ [s])) =
          (b :: (vs ++ [b'])) ++ e :: (ws ++ [s]) := by simp
      refine ⟨_, _, .letStmt, rfl, hl, bind_mk hn (orNothing_bind_iff.mpr (.inl ?_))⟩
      rw [hsplit]
      refine bind_mk hindex (one_bind_mk he (bind_mk hv ?_))
      exact one_bind_empty_iff.mpr ⟨_, rfl, hs, rfl⟩
  | branch hi hc hy =>
      refine ⟨_, _, .ifStmt, rfl, hi, bind_mk hc (bind_mk_nil hy (bind_empty_iff.mpr ?_))⟩
      exact ⟨none, .inr ⟨rfl, rfl⟩, rfl⟩
  | branchElse hi hc hy he hno =>
      refine ⟨_, _, .ifStmt, rfl, hi, bind_mk hc (bind_mk hy (bind_empty_iff.mpr ?_))⟩
      exact ⟨_, .inl (one_bind_mk he (bind_empty_iff.mpr ⟨_, hno, rfl⟩)), rfl⟩
  | loop hw hc hb =>
      exact ⟨_, _, .whileStmt, rfl, hw, bind_mk hc (bind_empty_iff.mpr ⟨_, hb, rfl⟩)⟩
  | call hd hc hs =>
      exact ⟨_, _, .doStmt, rfl, hd, bind_mk hc (one_bind_empty_iff.mpr ⟨_, rfl, hs, rfl⟩)⟩
  | ret hr hs =>
      refine ⟨_, _, .returnStmt, rfl, hr, orNothing_bind_iff.mpr (.inr ?_)⟩
      exact one_bind_empty_iff.mpr ⟨_, rfl, hs, rfl⟩
  | retValue hr hv hs =>
      refine ⟨_, _, .returnStmt, rfl, hr, orNothing_bind_iff.mpr (.inl ?_)⟩
      exact bind_mk (bind_empty_iff.mpr ⟨_, hv, rfl⟩) (one_bind_empty_iff.mpr ⟨_, rfl, hs, rfl⟩)

theorem IsStmt.of_rest {t : Token} {us : List Token} {k : Keyword} {s : Stmt}
    (hk : t.kind = .keyword k) (h : stmtRest k us s) : IsStmt (t :: us) s := by
  cases k with
  | letStmt =>
      obtain ⟨us, _, target, rfl, hn, h⟩ := h
      rcases orNothing_bind_iff.mp h with ⟨vs, _, index, rfl, hindex, h⟩ | h <;>
        obtain ⟨e, _, rfl, he, ws, _, value, rfl, hv, h⟩ := one_bind_iff.mp h <;>
        obtain ⟨s, rfl, hs, rfl⟩ := one_bind_empty_iff.mp h
      · obtain ⟨b, _, rfl, hb, vs, _, i, rfl, hi, hindex⟩ := one_bind_iff.mp hindex
        obtain ⟨b', rfl, hb', rfl⟩ := one_bind_empty_iff.mp hindex
        simpa using IsStmt.assignElement hk hn hb hi hb' he hv hs
      · exact .assign hk hn he hv hs
  | ifStmt =>
      obtain ⟨us, _, cond, rfl, hc, vs, _, yes, rfl, hy, h⟩ := h
      obtain ⟨no, helse | ⟨rfl, rfl⟩, rfl⟩ := bind_empty_iff.mp h
      · obtain ⟨e, ws, rfl, he, helse⟩ := one_bind_iff.mp helse
        obtain ⟨no, hno, rfl⟩ := bind_empty_iff.mp helse
        exact .branchElse hk hc hy he hno
      · simpa using IsStmt.branch hk hc hy
  | whileStmt =>
      obtain ⟨us, _, cond, rfl, hc, h⟩ := h
      obtain ⟨body, hb, rfl⟩ := bind_empty_iff.mp h
      exact .loop hk hc hb
  | doStmt =>
      obtain ⟨us, _, c, rfl, hc, h⟩ := h
      obtain ⟨s, rfl, hs, rfl⟩ := one_bind_empty_iff.mp h
      exact .call hk hc hs
  | returnStmt =>
      rcases orNothing_bind_iff.mp h with ⟨us, _, _, rfl, hvalue, h⟩ | h <;>
        obtain ⟨s, rfl, hs, rfl⟩ := one_bind_empty_iff.mp h
      · obtain ⟨value, hv, rfl⟩ := bind_empty_iff.mp hvalue
        exact .retValue hk hv hs
      · exact .ret hk hs
  | _ => exact h.elim

theorem IsStmt.begins : Begins (Kind.isKeyword Keyword.beginsStatement) IsStmt := by
  intro us s h
  obtain ⟨t, vs, k, rfl, hk, hrest⟩ := h.rest
  refine ⟨t, vs, rfl, ?_⟩
  rw [hk]
  cases k <;> first | rfl | exact hrest.elim

theorem IsStmt.productive : Productive IsStmt := by
  obtain ⟨_, r, rfl, hr⟩ := Productive.one (.keyword .returnStmt)
  obtain ⟨_, s, rfl, hs⟩ := Productive.one (.symbol .semicolon)
  exact ⟨[r, s], _, .ret hr hs⟩

/-! ## Blocks -/

/-- The token after a statement that is taken for more of it. -/
def Kind.extendsStmt (k : Kind) : Bool :=
  k == .keyword .elseBranch

theorem Kind.extendsStmt_of_beginsStatement {k : Kind}
    (h : k.isKeyword Keyword.beginsStatement = true) : k.extendsStmt = false := by
  rw [extendsStmt, beq_eq_false_iff_ne]
  rintro rfl
  cases h

theorem condition_reads (n : Nat) (go : Kind → Bool) :
    Reads n (parenExpr expr) IsCondition go :=
  (parenExpr_reads (expr_reads n) go).weaken (Nat.le_succ n)

theorem block_reads {stmt : Production Stmt} (h : Reads n stmt IsStmt Kind.extendsStmt) :
    Reads n (block stmt) (Repeated IsStmt)
      fun k => k.isKeyword Keyword.beginsStatement || k.extendsStmt :=
  repeatWhile_reads IsStmt.begins (fun _ => Kind.extendsStmt_of_beginsStatement) (fun _ => rfl)
    fun hw hn _ hK => h.meets hw hn hK

theorem blockEnd_reads (n : Nat) (go : Kind → Bool) :
    Reads n blockEnd ((one (.symbol .rightBrace)).bind fun _ => empty ()) go := by
  refine ⟨.last _ _, fun {w γ K} hw _ hK => ?_⟩
  have hfirst : Begins (· == .symbol .rightBrace)
      ((one (.symbol .rightBrace)).bind fun _ => empty ()) := (Begins.one _).bind
  rw [blockEnd]
  by_cases hk : w.current.kind = .symbol .rightBrace
  · refine Meets.of_eq ?_ (get_if_pos (isAt_iff.mpr hk) _ _)
    refine Meets.restrict hfirst ?_ ?_ (Meets.slide hw (Kind.Passable.of_eq hk) hK.productive)
    · rintro us u ⟨rfl, rfl⟩
      exact one_bind_empty_iff.mpr ⟨_, rfl, hk, rfl⟩
    · intro us u h
      obtain ⟨t, hus, -, rfl⟩ := one_bind_empty_iff.mp h
      obtain ⟨rfl, rfl⟩ := List.cons.inj hus
      exact ⟨rfl, rfl⟩
  · refine Meets.of_eq ?_ (get_if_neg (mt isAt_iff.mp hk) _ _)
    exact Meets.complain_of_begins hfirst (beq_eq_false_iff_ne.mpr hk) (.last _ _) hK.productive

/-- The end of a block with a value for the whole. -/
theorem blockEnd_pure_reads (n : Nat) (a : α) (go : Kind → Bool) :
    Reads n (blockEnd >>= fun _ => pure a) ((one (.symbol .rightBrace)).bind fun _ => empty a)
      go := by
  have hend := (blockEnd_reads n go).bind_pure fun _ => a
  simpa only [Phrase.bind_assoc, empty_bind] using hend

/-- Statements between braces. -/
theorem braced_reads {stmt : Production Stmt} (h : Reads n stmt IsStmt Kind.extendsStmt)
    (go : Kind → Bool) : Reads n (braced stmt) (Braced IsStmt) go := by
  rw [bracedPhrase_eq]
  refine .take_bind fun _ => ?_
  refine (block_reads h).bind_begins (fun stmts => blockEnd_pure_reads n stmts go)
    (fun _ => (Begins.one _).bind) fun k hk => ?_
  rw [eq_of_beq hk]
  rfl

/-! ## Statements by their first word -/

/-- What is read after the word that begins a statement. -/
def afterWord (stmt : Production Stmt) : Keyword → Production Stmt
  | .letStmt => do
      let target ← name
      let index ← optional (fun w => w.isAt (.symbol .leftBracket))
        (do
          let _ ← take (.symbol .leftBracket)
          let index ← expr
          let _ ← take (.symbol .rightBracket)
          return some index)
        none
      let _ ← take (.symbol .equals)
      let value ← expr
      let _ ← take (.symbol .semicolon)
      return .assign target index value
  | .ifStmt => do
      let cond ← parenExpr expr
      let yes ← braced stmt
      let no ← optional (fun w => w.isAt (.keyword .elseBranch))
        (do
          let _ ← take (.keyword .elseBranch)
          some <$> braced stmt)
        none
      return .branch cond yes no
  | .whileStmt => do
      let cond ← parenExpr expr
      let body ← braced stmt
      return .loop cond body
  | .doStmt => do
      let c ← call expr
      let _ ← take (.symbol .semicolon)
      return .call c
  | .returnStmt => do
      let value ← optional (fun w => !w.atSymbol .semicolon) (some <$> expr) none
      let _ ← take (.symbol .semicolon)
      return .ret value
  | _ => expected "statement"

theorem statementOver_eq (stmt : Production Stmt) {w : Window} {k : Keyword}
    (hw : w.current.kind = .keyword k) (hk : k.beginsStatement = true) :
    statementOver stmt w = (take (.keyword k) >>= fun _ => afterWord stmt k) w := by
  have hkeyword : w.keyword? = some k := by rw [Window.keyword?, hw]; rfl
  rw [statementOver, get_bind, hkeyword]
  cases k with
  | letStmt =>
      simp only [assignment, afterWord, accept_bind_eq, optional_bind, LawfulMonad.bind_assoc,
        pure_bind, reduceIte, Bool.false_eq_true]
  | ifStmt =>
      simp only [conditional, afterWord, accept_bind_eq, optional_bind, LawfulMonad.bind_assoc,
        pure_bind, reduceIte, Bool.false_eq_true]
  | whileStmt => rfl
  | doStmt => rfl
  | returnStmt =>
      simp only [returnStatement, afterWord, optional_not_bind, pure_bind]
  | _ => cases hk

theorem statementOver_eq_expected (stmt : Production Stmt) {w : Window}
    (hw : w.current.kind.isKeyword Keyword.beginsStatement = false) :
    statementOver stmt w = expected "statement" w := by
  rw [statementOver, get_bind, Window.keyword?]
  cases hk : w.current.kind with
  | keyword k =>
      rw [hk] at hw
      cases k <;> first | rfl | cases hw
  | _ => rfl

theorem afterWord_reads {stmt : Production Stmt} (h : Reads n stmt IsStmt Kind.extendsStmt)
    {k : Keyword} (hk : k.beginsStatement = true) :
    Reads n (afterWord stmt k) (stmtRest k) Kind.extendsStmt := by
  cases k with
  | letStmt =>
      have hindex : Reads n _ indexPhrase fun _ => false :=
        .take_bind fun _ => (expr_reads n).bind_begins (fun index => .last n _ (some index))
          (fun _ => (Begins.one _).bind) fun k hk => eq_of_beq hk ▸ rfl
      have hoptional := optional_reads (fun w => w.isAt (.symbol .leftBracket)) none
        (fun _ => rfl) (Begins.one _).bind hindex
      refine (name_reads n _).bind_any fun target => hoptional.bind_begins (fun index => ?_)
        (fun _ => (Begins.one _).bind) fun k hk => eq_of_beq hk ▸ rfl
      refine .take_bind fun _ => (expr_reads n).bind_begins (fun value => .last n _ _)
        (fun _ => (Begins.one _).bind) fun k hk => eq_of_beq hk ▸ rfl
  | ifStmt =>
      have helse : Reads n _ elsePhrase fun _ => false :=
        .take_bind fun _ => (braced_reads h _).map some
      have hoptional := optional_reads (fun w => w.isAt (.keyword .elseBranch)) none
        (fun _ => rfl) (Begins.one _).bind helse
      refine (condition_reads n _).bind_any fun cond => (braced_reads h _).bind_any fun yes => ?_
      exact (hoptional.bind_pure _).mono fun k hk => by simpa [Kind.extendsStmt] using hk
  | whileStmt => exact (condition_reads n _).bind_any fun cond => (braced_reads h _).bind_pure _
  | doStmt =>
      apply ((call_reads (expr_reads n) _).weaken (Nat.le_succ n)).bind_any
      intro c
      exact .last n _ _
  | returnStmt =>
      have hvalue : Reads n _ valuePhrase Kind.extendsExpr := (expr_reads n).map some
      have hfirst : Begins (· != .symbol .semicolon) IsExpr := isExpr_begins.mono fun k hk => by
        rw [bne_iff_ne]
        rintro rfl
        cases hk
      have hoptional := optional_reads (fun w => !w.atSymbol .semicolon) none
        (fun _ => rfl) hfirst.bind hvalue
      refine hoptional.bind_begins (fun value => .last n _ _) (fun _ => (Begins.one _).bind)
        fun k hk => ?_
      rw [eq_of_beq hk]
      rfl
  | _ => cases hk

/-- A statement, given how to read the ones inside it. -/
theorem statementOver_reads {stmt : Production Stmt} (h : Reads n stmt IsStmt Kind.extendsStmt) :
    Reads (n + 1) (statementOver stmt) IsStmt Kind.extendsStmt := by
  refine ⟨IsStmt.productive, fun {w γ K} hw hn hK => ?_⟩
  cases hbegins : w.current.kind.isKeyword Keyword.beginsStatement with
  | false =>
      refine Meets.of_eq ?_ (statementOver_eq_expected stmt hbegins)
      exact Meets.complain_of_begins IsStmt.begins hbegins IsStmt.productive hK.productive
  | true =>
      obtain ⟨k, hk, hword⟩ := Kind.isKeyword_iff.mp hbegins
      have hrest : Reads (n + 1) (take (.keyword k) >>= fun _ => afterWord stmt k)
          ((one (.keyword k)).bind fun _ => stmtRest k) Kind.extendsStmt :=
        .take_bind_succ fun _ => afterWord_reads h hword
      refine Meets.of_eq ?_ (statementOver_eq stmt hk hword)
      refine Meets.restrict IsStmt.begins ?_ ?_ (hrest.meets hw hn hK)
      · intro us s hs
        obtain ⟨t, vs, rfl, ht, hs⟩ := one_bind_iff.mp hs
        exact .of_rest ht hs
      · intro us s hs
        obtain ⟨t, vs, k', hus, hk', hrest⟩ := hs.rest
        obtain ⟨rfl, rfl⟩ := List.cons.inj hus
        rw [hk, Kind.keyword.injEq] at hk'
        exact one_bind_mk hk (hk' ▸ hrest)

/-- Statements of a bounded depth are read from windows with fewer tokens than the bound. -/
theorem statementWithin_reads (n : Nat) :
    Reads n (statementWithin n) IsStmt Kind.extendsStmt := by
  induction n with
  | zero => exact ⟨IsStmt.productive, fun _ hn => absurd hn (Nat.not_lt_zero _)⟩
  | succ n ih => exact statementOver_reads ih

/-- A statement. -/
theorem statement_reads (n : Nat) : Reads n statement IsStmt Kind.extendsStmt := by
  refine ⟨IsStmt.productive, fun {w γ K} hw _ hK => ?_⟩
  have hwithin := (statementWithin_reads (w.remaining + 1)).meets hw (Nat.lt_succ_self _) hK
  apply hwithin.of_eq
  rw [statement, get_bind]

end JackCompiler
