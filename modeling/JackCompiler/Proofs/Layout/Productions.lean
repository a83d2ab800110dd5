import JackCompiler.Proofs.Layout.Alike

/-!
# Productions on alike windows

From alike windows every production reads the same tree at different places, or complains of the
same token. In the end a whole class does.

## Implementation notes

Each lemma is the production written again with the rules in the place of the steps. Only a term, a
type and a statement, which look at the current token first, are taken apart by its kind. The
productions over an inner expression or statement are tracked with one token more than the inner
one, and the rule for depth closes the circle.
-/

namespace JackCompiler

open Production

variable {α β : Type} {φ : Nat → Nat} {n : Nat} {ts : List Token} {w w' : Window}

/-! ## Expressions -/

/-- A relabelled operand. -/
def operandRelabelled (r : Relabelling) : List UnaryOp × Term → List UnaryOp × Term :=
  Prod.map id (Term.relabelled r)

/-- A relabelled operator with its operand. -/
def operationRelabelled (r : Relabelling) :
    BinaryOp × List UnaryOp × Term → BinaryOp × List UnaryOp × Term :=
  Prod.map id (operandRelabelled r)

theorem Expr.relabelled_ofRow (r : Relabelling) (unary : List UnaryOp) (t : Term)
    (rest : List (BinaryOp × List UnaryOp × Term)) :
    (Expr.ofRow unary t rest).relabelled r =
      .ofRow unary (t.relabelled r) (rest.map (operationRelabelled r)) := by
  induction rest generalizing unary t with
  | nil => rfl
  | cons o rest ih =>
      rw [Expr.ofRow, Expr.relabelled, ih]
      rfl

theorem Call.relabelled_mk (r : Relabelling) (receiver : Option Name) (n : Name)
    (args : List Expr) : (Call.mk receiver n args).relabelled r =
      .mk (receiver.map r.renamed) (r.moved n) (args.map (Expr.relabelled r)) := by
  rw [Call.relabelled, argsRelabelled_eq]

theorem name_tracks (φ : Nat → Nat) (n : Nat) :
    Tracks φ n 1 (Relabelling.moving φ).renamed name name :=
  (take_tracks n .identifier).bind fun _ => Tracks.pure_of n rfl

theorem integer_matched (h : w.Alike φ ts w') (hk : w.current.kind = .number) (digits : String) :
    Matched φ 1 ts.length (Term.relabelled (.moving φ)) (integer digits w) (integer digits w') := by
  unfold integer
  cases constantOfDigits? digits with
  | some value =>
      exact h.slide_bind (Kind.Passable.of_eq hk) (Nat.le_succ _) (Tracks.pure_of _ rfl)
  | none =>
      simp only [get_bind, h.current]
      exact .error _ _ _

theorem textConstant_tracks (φ : Nat → Nat) (n : Nat) (contents : String) :
    Tracks φ n 1 (Term.relabelled (.moving φ)) (textConstant contents) (textConstant contents) :=
  (take_tracks n .text).bind fun _ => Tracks.pure_of n rfl

theorem Agrees.afterDot : Agrees φ Window.afterDot := by
  intro ts w w' h
  rw [Window.afterDot, Window.afterDot, h.previous, Option.any_map]
  rfl

section Terms

variable {expr expr' : Production Expr}
  (hexpr : Tracks φ n 1 (Expr.relabelled (.moving φ)) expr expr')
include hexpr

theorem callRest_tracks (first : Name) :
    Tracks φ (n + 1) 1 (Call.relabelled (.moving φ)) (callRest expr first)
      (callRest expr' ((Relabelling.moving φ).renamed first)) := by
  have hargs := parenthesised_tracks hexpr
  have hcall (receiver : Option Name) (n' : Name) (args : List Expr) :
      Tracks φ (n + 1) 0 (Call.relabelled (.moving φ)) (pure (.mk receiver n' args))
        (pure (.mk (receiver.map (Relabelling.moving φ).renamed)
          ((Relabelling.moving φ).moved n') (args.map (Expr.relabelled (.moving φ))))) :=
    Tracks.pure_of _ (Call.relabelled_mk _ receiver n' args)
  refine (accept_tracks (n + 1) _).bind_passing fun _ => ?_
  -- Whether there was a dot is asked of the previous token, the only time that one matters.
  refine Tracks.ite .afterDot (Tracks.guarded ?_) ?_
  · exact (name_tracks φ (n + 1)).bind fun method => hargs.bind fun args =>
      hcall (some first) method args
  · exact hargs.bind fun args => hcall none first args

theorem call_tracks :
    Tracks φ (n + 1) 1 (Call.relabelled (.moving φ)) (call expr) (call expr') :=
  (name_tracks φ (n + 1)).bind fun first => callRest_tracks hexpr first

theorem nameRest_tracks (k : Kind) (first : Name) :
    Tracks φ (n + 1) 0 (Term.relabelled (.moving φ)) (nameRest expr k first)
      (nameRest expr' k ((Relabelling.moving φ).renamed first)) := by
  cases hk : k.extendsName with
  | false =>
      rw [nameRest_of_extendsName hk, nameRest_of_extendsName hk]
      exact Tracks.pure_of _ rfl
  | true =>
      have hcall : Tracks φ (n + 1) 1 (Term.relabelled (.moving φ))
          (.call <$> callRest expr first)
          (.call <$> callRest expr' ((Relabelling.moving φ).renamed first)) :=
        (callRest_tracks hexpr first).map fun _ => rfl
      cases k with
      | symbol s =>
          cases s with
          | leftBracket =>
              exact ((take_tracks (n + 1) _).bind_succ fun _ => hexpr.bind fun _ =>
                Tracks.last n _ rfl).weaken (Nat.le_refl _) (Nat.zero_le 1)
          | leftParen | dot => exact hcall.weaken (Nat.le_refl _) (Nat.zero_le 1)
          | _ => cases hk
      | _ => cases hk

theorem named_matched (h : w.Alike φ ts w') (hk : w.current.kind = .identifier)
    (hlength : ts.length ≤ n + 1) :
    Matched φ 1 ts.length (Term.relabelled (.moving φ)) (named expr w) (named expr' w') := by
  have hlookahead : w'.lookahead.kind = w.lookahead.kind := by
    rw [h.lookahead (Kind.Passable.of_eq hk)]
    rfl
  -- With equal lookaheads the two runs take the same branch, so the name can be read first in both.
  rw [named_eq, named_eq, hlookahead]
  exact (name_tracks φ (n + 1)).bind (fun first => nameRest_tracks hexpr _ first) h hlength

theorem parenExpr_tracks :
    Tracks φ (n + 1) 1 (Expr.relabelled (.moving φ)) (parenExpr expr) (parenExpr expr') :=
  (take_tracks (n + 1) _).bind_succ fun _ => hexpr.bind fun _ => Tracks.last n _ rfl

theorem term_tracks :
    Tracks φ (n + 1) 1 (Term.relabelled (.moving φ)) (term expr) (term expr') := by
  refine Tracks.get fun ts w w' h hlength => ?_
  have hother := Tracks.expected (n + 1) 1 (Term.relabelled (.moving φ)) "term" h hlength
  have hcontents : w'.contents? = w.contents? := by
    rw [Window.contents?, Window.contents?, h.kind, h.text]
  have hparen : Tracks φ (n + 1) 1 (Term.relabelled (.moving φ)) (.paren <$> parenExpr expr)
      (.paren <$> parenExpr expr') := (parenExpr_tracks hexpr).map fun _ => rfl
  rw [h.kind, h.text, hcontents]
  cases hk : w.current.kind with
  | number => exact integer_matched h hk _
  | text => exact textConstant_tracks φ (n + 1) _ h hlength
  | identifier => exact named_matched hexpr h hk hlength
  | finish => exact hother
  | symbol s =>
      cases s with
      | leftParen => exact hparen h hlength
      | _ => exact hother
  | keyword k =>
      cases hc : WordConstant.ofKeyword? k with
      | none => simpa only [hc] using hother
      | some constant =>
          simp only [hc]
          exact h.slide_bind (Kind.Passable.of_eq hk) hlength (Tracks.pure_of n rfl)

theorem operand_tracks :
    Tracks φ (n + 1) 1 (operandRelabelled (.moving φ)) (operand expr) (operand expr') := by
  have hunary : Tracks φ (n + 1) 0 (List.map id) (repeatWhile (fun w => w.unary?.isSome) unaryOp)
      (repeatWhile (fun w => w.unary?.isSome) unaryOp) := by
    refine repeatWhile_tracks (.of_kind Window.unary?_isSome) (Tracks.guarded ?_)
    rw [unaryOp_eq]
    exact announced_tracks Window.unary?_eq_some_iff _ fun op => Tracks.pure n id op
  refine hunary.bind_passing fun unary => ?_
  rw [List.map_id]
  exact (term_tracks hexpr).bind fun t => Tracks.pure_of (n + 1) rfl

theorem operation_tracks :
    Tracks φ (n + 1) 1 (operationRelabelled (.moving φ)) (operation expr) (operation expr') := by
  have hoperand := (operand_tracks hexpr).weaken (Nat.le_succ n) (Nat.le_refl 1)
  rw [operation_eq, operation_eq]
  exact announced_tracks Window.binary?_eq_some_iff _ fun op =>
    hoperand.bind fun right => Tracks.pure_of n rfl

theorem row_tracks : Tracks φ (n + 1) 1 (Expr.relabelled (.moving φ)) (row expr) (row expr') := by
  have hrest : Tracks φ (n + 1) 0 (List.map (operationRelabelled (.moving φ)))
      (repeatWhile (fun w => w.binary?.isSome) (operation expr))
      (repeatWhile (fun w => w.binary?.isSome) (operation expr')) :=
    repeatWhile_tracks (.of_kind Window.binary?_isSome) (operation_tracks hexpr).guarded
  exact (operand_tracks hexpr).bind fun first => hrest.bind fun rest =>
    Tracks.pure_of _ (Expr.relabelled_ofRow _ first.1 first.2 rest)

end Terms

theorem expr_tracks (φ : Nat → Nat) (n : Nat) :
    Tracks φ n 1 (Expr.relabelled (.moving φ)) expr expr :=
  Tracks.of_depth (p := exprWithin) row_tracks n

/-! ## Statements -/

theorem Stmt.relabelled_branch (r : Relabelling) (cond : Expr) (yes : List Stmt)
    (no : Option (List Stmt)) : (Stmt.branch cond yes no).relabelled r =
      .branch (cond.relabelled r) (yes.map (Stmt.relabelled r))
        (no.map (List.map (Stmt.relabelled r))) := by
  cases no with
  | none => rw [Stmt.relabelled, blockRelabelled_eq, Option.map_none]
  | some no => rw [Stmt.relabelled, blockRelabelled_eq, blockRelabelled_eq, Option.map_some]

theorem Stmt.relabelled_loop (r : Relabelling) (cond : Expr) (body : List Stmt) :
    (Stmt.loop cond body).relabelled r =
      .loop (cond.relabelled r) (body.map (Stmt.relabelled r)) := by
  rw [Stmt.relabelled, blockRelabelled_eq]

theorem blockEnd_tracks (φ : Nat → Nat) (n : Nat) : Tracks φ n 1 id blockEnd blockEnd :=
  Tracks.ite (.isAt _) (fun _ _ _ h _ hat => h.slide (Kind.Passable.of_eq (isAt_iff.mp hat)))
    (Tracks.expected n 1 id _)

theorem condition_tracks (φ : Nat → Nat) (n : Nat) :
    Tracks φ n 1 (Expr.relabelled (.moving φ)) (parenExpr expr) (parenExpr expr) :=
  (parenExpr_tracks (expr_tracks φ n)).weaken (Nat.le_succ n) (Nat.le_refl 1)

section Statements

variable {stmt stmt' : Production Stmt}
  (hstmt : Tracks φ n 1 (Stmt.relabelled (.moving φ)) stmt stmt')
include hstmt

theorem block_tracks :
    Tracks φ n 0 (List.map (Stmt.relabelled (.moving φ))) (block stmt) (block stmt') :=
  repeatWhile_tracks (.atKeyword _) hstmt.guarded

theorem braced_tracks :
    Tracks φ n 1 (List.map (Stmt.relabelled (.moving φ))) (braced stmt) (braced stmt') :=
  (take_tracks n _).bind fun _ => (block_tracks hstmt).bind fun _ =>
    (blockEnd_tracks φ n).bind fun _ => Tracks.pure n _ _

/-- What follows the first word of a statement. An optional part is mapped as an option. -/
theorem afterWord_tracks (k : Keyword) :
    Tracks φ n 1 (Stmt.relabelled (.moving φ)) (afterWord stmt k) (afterWord stmt' k) := by
  cases k with
  | letStmt =>
      refine (name_tracks φ n).bind fun target => Tracks.bind
        (optional_tracks (d := 1) (f := Option.map (Expr.relabelled (.moving φ)))
          (.isAt _) ?_ none) fun index => (take_tracks n _).bind fun _ =>
            (expr_tracks φ n).bind fun value => Tracks.last n _ rfl
      exact (take_tracks n _).bind fun _ => (expr_tracks φ n).bind fun _ => Tracks.last n _ rfl
  | ifStmt =>
      refine (condition_tracks φ n).bind fun cond => (braced_tracks hstmt).bind fun yes =>
        Tracks.bind (optional_tracks (d := 1)
          (f := Option.map (List.map (Stmt.relabelled (.moving φ)))) (.isAt _) ?_
          none) fun no => Tracks.pure_of n (Stmt.relabelled_branch _ cond yes no)
      exact (take_tracks n _).bind fun _ => (braced_tracks hstmt).map fun _ => rfl
  | whileStmt =>
      exact (condition_tracks φ n).bind fun cond => (braced_tracks hstmt).bind fun body =>
        Tracks.pure_of n (Stmt.relabelled_loop _ cond body)
  | doStmt =>
      have hcall := (call_tracks (expr_tracks φ n)).weaken (Nat.le_succ n) (Nat.le_refl 1)
      exact hcall.bind fun c => Tracks.last n _ rfl
  | returnStmt =>
      refine Tracks.bind_passing (optional_tracks (d := 1)
        (f := Option.map (Expr.relabelled (.moving φ)))
        (Agrees.isAt _).not ?_ none) fun value => Tracks.last n _ rfl
      exact (expr_tracks φ n).map fun _ => rfl
  | _ => exact Tracks.expected n 1 _ _

/-- A statement, given how to read the ones inside it. -/
theorem statementOver_tracks : Tracks φ (n + 1) 1 (Stmt.relabelled (.moving φ))
    (statementOver stmt) (statementOver stmt') := by
  intro ts w w' h hlength
  cases hbegins : w.current.kind.isKeyword Keyword.beginsStatement with
  | false =>
      have hbegins' : w'.current.kind.isKeyword Keyword.beginsStatement = false := by rwa [h.kind]
      rw [statementOver_eq_expected stmt hbegins, statementOver_eq_expected stmt' hbegins']
      exact Tracks.expected (n + 1) 1 _ _ h hlength
  | true =>
      obtain ⟨k, hk, hword⟩ := Kind.isKeyword_iff.mp hbegins
      rw [statementOver_eq stmt hk hword, statementOver_eq stmt' (h.kind.trans hk) hword]
      exact (take_tracks (n + 1) _).bind_succ (fun _ => afterWord_tracks hstmt k) h hlength

end Statements

theorem statement_tracks (φ : Nat → Nat) (n : Nat) :
    Tracks φ n 1 (Stmt.relabelled (.moving φ)) statement statement :=
  Tracks.of_depth (p := statementWithin) statementOver_tracks n

/-! ## Declarations -/

/-- A relabelled member of a class. -/
def Member.relabelled (r : Relabelling) : Member → Member
  | vars v => vars (v.relabelled r)
  | subroutine s => subroutine (s.relabelled r)

/-- The relabelled name and members of a class. -/
def membersRelabelled (r : Relabelling) : Name × List Member → Name × List Member :=
  Prod.map r.moved (List.map (Member.relabelled r))

theorem ClassTree.relabelled_ofMembers (r : Relabelling) (n : Name) (members : List Member) :
    (ClassTree.ofMembers n members).relabelled r =
      .ofMembers (r.moved n) (members.map (Member.relabelled r)) := by
  have hvars (m : Member) :
      (m.relabelled r).vars? = m.vars?.map (ClassVariables.relabelled r) := by cases m <;> rfl
  have hsubroutines (m : Member) :
      (m.relabelled r).subroutine? = m.subroutine?.map (Subroutine.relabelled r) := by
    cases m <;> rfl
  simp only [ofMembers, relabelled, List.map_filterMap, List.filterMap_map, Function.comp_def,
    hvars, hsubroutines]

theorem record_tracks (φ : Nat → Nat) (n : Nat) (r : Record) :
    Tracks φ n 0 id (record r) (record r) := by
  rintro ts w w' ⟨hready, hready', hahead, hahead', hprevious⟩ -
  exact .ok (a := ()) ⟨⟨hready.primed, hready.size_eq, hready.current, hready.lookahead⟩,
    ⟨hready'.primed, hready'.size_eq, hready'.current, hready'.lookahead⟩, hahead, hahead',
    hprevious⟩ (Nat.le_refl _)

theorem varType_tracks (φ : Nat → Nat) (n : Nat) : Tracks φ n 1 id varType varType := by
  refine Tracks.get fun ts w w' h hlength => ?_
  have hother := Tracks.expected n 1 (id : VarType → VarType) "a type" h hlength
  have hname : Tracks φ n 1 id (name >>= fun m => pure (VarType.object m.text))
      (name >>= fun m => pure (VarType.object m.text)) :=
    (name_tracks φ n).bind fun _ => Tracks.pure_of n rfl
  rw [h.kind]
  cases hk : w.current.kind with
  | identifier => exact hname h hlength
  | keyword k =>
      cases hc : VarType.ofKeyword? k with
      | none => simpa only [hc] using hother
      | some type =>
          simp only [hc]
          exact h.slide_bind (Kind.Passable.of_eq hk) (Nat.le_succ_of_le hlength)
            (Tracks.pure_of n rfl)
  | symbol _ | number | text | finish => exact hother

/-- A type, names of that type and a semicolon. -/
theorem typedNames_tracks (n : Nat) {f : α → β} {make : VarType → List Name → α}
    {make' : VarType → List Name → β}
    (hmake : ∀ type names, f (make type names) =
      make' type (names.map (Relabelling.moving φ).renamed)) :
    Tracks φ n 1 f
      (varType >>= fun type => commaSeparated name >>= fun names =>
        take (.symbol .semicolon) >>= fun _ => pure (make type names))
      (varType >>= fun type => commaSeparated name >>= fun names =>
        take (.symbol .semicolon) >>= fun _ => pure (make' type names)) :=
  (varType_tracks φ n).bind fun type => (commaSeparated_tracks (name_tracks φ n)).bind fun names =>
    Tracks.last n _ (hmake type names)

theorem classVariables_tracks (φ : Nat → Nat) (n : Nat) :
    Tracks φ n 1 (ClassVariables.relabelled (.moving φ)) classVariables classVariables := by
  rw [classVariables_eq]
  refine Tracks.weaken (announced_tracks (e := 1) ClassVariableKind.ofKeyword?_eq_some_iff _
    fun kind => ?_) (Nat.le_succ n) (Nat.le_refl 1)
  exact typedNames_tracks n fun _ _ => rfl

theorem parameter_tracks (φ : Nat → Nat) (n : Nat) :
    Tracks φ n 1 (Parameter.relabelled (.moving φ)) parameter parameter :=
  (varType_tracks φ n).bind fun _ => (name_tracks φ n).bind fun _ => Tracks.pure_of n rfl

theorem parameters_tracks (φ : Nat → Nat) (n : Nat) :
    Tracks φ n 1 (List.map (Parameter.relabelled (.moving φ))) parameters parameters :=
  (parenthesised_tracks (parameter_tracks φ n)).weaken (Nat.le_succ n) (Nat.le_refl 1)

theorem localVariables_tracks (φ : Nat → Nat) (n : Nat) :
    Tracks φ n 1 (LocalVariables.relabelled (.moving φ)) localVariables localVariables :=
  (take_tracks n _).bind fun _ => typedNames_tracks n fun _ _ => rfl

theorem body_tracks (φ : Nat → Nat) (n : Nat) :
    Tracks φ n 1 (Body.relabelled (.moving φ)) body body := by
  have hlocals : Tracks φ n 0 (List.map (LocalVariables.relabelled (.moving φ)))
      (repeatWhile (fun w => w.isAt (.keyword .var)) localVariables)
      (repeatWhile (fun w => w.isAt (.keyword .var)) localVariables) :=
    repeatWhile_tracks (.isAt _) (localVariables_tracks φ n).guarded
  refine (take_tracks n _).bind fun _ => hlocals.bind fun locals =>
    (block_tracks (statement_tracks φ n)).bind fun stmts => (blockEnd_tracks φ n).bind fun _ =>
      Tracks.pure_of n ?_
  rw [Body.relabelled, blockRelabelled_eq]

theorem returnType_tracks (φ : Nat → Nat) (n : Nat) :
    Tracks φ n 0 id returnType returnType := by
  have htype : Tracks φ n 1 id (varType >>= fun type => pure (some type))
      (varType >>= fun type => pure (some type)) :=
    (varType_tracks φ n).bind fun _ => Tracks.pure_of n rfl
  refine (accept_tracks n _).bind_passing fun void => ?_
  cases void with
  | true => exact Tracks.pure n id none
  | false => exact htype.weaken (Nat.le_refl n) (Nat.zero_le 1)

theorem subroutine_tracks (φ : Nat → Nat) (n : Nat) :
    Tracks φ n 1 (Subroutine.relabelled (.moving φ)) subroutine subroutine := by
  rw [subroutine_eq]
  refine Tracks.weaken (announced_tracks (e := 0) SubroutineKind.ofKeyword?_eq_some_iff _
    fun kind => ?_) (Nat.le_succ n) (Nat.le_refl 1)
  exact (returnType_tracks φ n).bind fun _ => (name_tracks φ n).bind fun _ =>
    (record_tracks φ n _).bind fun _ => (parameters_tracks φ n).bind fun _ =>
      (body_tracks φ n).bind fun _ => Tracks.pure_of n rfl

theorem member_tracks (φ : Nat → Nat) (n : Nat) :
    Tracks φ n 1 (Member.relabelled (.moving φ)) member member :=
  Tracks.ite (.atKeyword _)
    (Tracks.guarded ((classVariables_tracks φ n).bind fun _ => Tracks.pure_of n rfl))
    (Tracks.ite (.atKeyword _)
      (Tracks.guarded ((subroutine_tracks φ n).bind fun _ => Tracks.pure_of n rfl))
      (Tracks.expected n 1 _ _))

theorem classMembers_tracks (φ : Nat → Nat) (n : Nat) :
    Tracks φ n 1 (membersRelabelled (.moving φ)) classMembers classMembers := by
  have hmembers : Tracks φ n 0 (List.map (Member.relabelled (.moving φ)))
      (repeatWhile (fun w => !w.atSymbol .rightBrace) member)
      (repeatWhile (fun w => !w.atSymbol .rightBrace) member) :=
    repeatWhile_tracks (Agrees.isAt _).not (member_tracks φ n).guarded
  exact (take_tracks n _).bind fun _ => (name_tracks φ n).bind fun _ =>
    (record_tracks φ n _).bind fun _ => (take_tracks n _).bind fun _ =>
      hmembers.bind fun _ => Tracks.last n _ rfl

theorem classEnd_tracks (φ : Nat → Nat) (n : Nat) (c : Name × List Member) :
    Tracks φ n 0 (ClassTree.relabelled (.moving φ)) (classEnd c)
      (classEnd (membersRelabelled (.moving φ) c)) :=
  Tracks.ite (.of_kind (b := (· != .finish)) fun _ => rfl) (Tracks.expected n 0 _ _).guarded
    (Tracks.pure_of n (ClassTree.relabelled_ofMembers _ c.1 c.2))

/-- A class up to the end of the source. -/
theorem wholeClass_tracks (φ : Nat → Nat) (n : Nat) :
    Tracks φ n 1 (ClassTree.relabelled (.moving φ)) (classMembers >>= classEnd)
      (classMembers >>= classEnd) :=
  (classMembers_tracks φ n).bind fun c => classEnd_tracks φ n c

end JackCompiler
