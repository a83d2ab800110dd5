import JackCompiler.Grammar.Declaration
import JackCompiler.Proofs.Syntax.Views

/-!
# One feed in place of another

A window asks its feed for the next token and for its offset, and nothing else. So with another feed
that answers the same, now and later, every production reads the same, complains of the same and
leaves the same window, but for the feed that is in it.

## Implementation notes

Each lemma is the production written again with the rules in the place of the steps. A condition on a
window does not look at the feed, so the two runs decide it alike by computation.
-/

namespace JackCompiler

open Production

variable {S T α β : Type}

/-- A window with another feed in it. -/
def Window.withFeed (w : Window S) (t : T) : Window T where
  size := w.size
  scanner := t
  previous := w.previous
  current := w.current
  lookahead := w.lookahead
  primed := w.primed
  journal := w.journal

/-- Two results are the same but for the feeds of their windows, which are related. -/
inductive SameButFeed (R : S → T → Prop) :
    EStateM.Result Complaint (Window S) α → EStateM.Result Complaint (Window T) α → Prop
  | ok (a : α) (w : Window S) {t : T} : R w.scanner t → SameButFeed R (.ok a w) (.ok a (w.withFeed t))
  | error (e : Complaint) (w : Window S) {t : T} :
      R w.scanner t → SameButFeed R (.error e w) (.error e (w.withFeed t))

/-- From windows that are the same but for their feeds two productions have such results. -/
def Interchanges (R : S → T → Prop) (p : ProductionOver S α) (p' : ProductionOver T α) : Prop :=
  ∀ (w : Window S) ⦃t : T⦄, R w.scanner t → SameButFeed R (p w) (p' (w.withFeed t))

namespace Interchanges

section Rules

variable {R : S → T → Prop} {p : ProductionOver S α} {p' : ProductionOver T α}
  {q : α → ProductionOver S β} {q' : α → ProductionOver T β}

theorem pure (a : α) : Interchanges R (pure a) (pure a) :=
  fun w _ h => .ok a w h

theorem bind (hp : Interchanges R p p') (hq : ∀ a, Interchanges R (q a) (q' a)) :
    Interchanges R (p >>= q) (p' >>= q') := by
  intro w t h
  have hfirst := hp w h
  generalize hr : p w = r at hfirst
  generalize hr' : p' (w.withFeed t) = r' at hfirst
  cases hfirst with
  | ok a v hv =>
      rw [bind_ok hr, bind_ok hr']
      exact hq a v hv
  | error e v hv =>
      rw [bind_error hr, bind_error hr']
      exact .error e v hv

theorem map (f : α → β) (hp : Interchanges R p p') : Interchanges R (f <$> p) (f <$> p') := by
  rw [map_eq_pure_bind, map_eq_pure_bind]
  exact hp.bind fun a => pure (f a)

/-- Productions that look at the window first. -/
theorem get {q : Window S → ProductionOver S α} {q' : Window T → ProductionOver T α}
    (h : ∀ (w : Window S) ⦃t : T⦄, R w.scanner t →
      SameButFeed R (q w w) (q' (w.withFeed t) (w.withFeed t))) :
    Interchanges R (get >>= q) (get >>= q') :=
  h

/-- Productions that choose by a condition on the window. -/
theorem ite {c : Window S → Bool} {c' : Window T → Bool} {r : ProductionOver S α}
    {r' : ProductionOver T α} (hc : ∀ (w : Window S) (t : T), c' (w.withFeed t) = c w)
    (hp : Interchanges R p p') (hr : Interchanges R r r') :
    Interchanges R (MonadState.get >>= fun w => if c w then p else r)
      (MonadState.get >>= fun w => if c' w then p' else r') := by
  refine get fun w t h => ?_
  rw [hc]
  cases c w with
  | true => exact hp w h
  | false => exact hr w h

theorem expected (what : String) :
    Interchanges R (expected what : ProductionOver S α) (JackCompiler.expected what) :=
  fun w _ h => .error (w.unexpected what) w h

theorem record (r : Record) : Interchanges R (record r) (JackCompiler.record r) :=
  fun w _ h => .ok () { w with journal := r :: w.journal } h

/-- Changes of the window that do not look at its feed. -/
theorem modify {f : Window S → Window S} {f' : Window T → Window T}
    (h : ∀ (w : Window S) (t : T), f' (w.withFeed t) = (f w).withFeed t)
    (hscanner : ∀ w, (f w).scanner = w.scanner) :
    Interchanges R (MonadState.modifyGet fun w => ((), f w))
      (MonadState.modifyGet fun w => ((), f' w)) := by
  intro w t hR
  change SameButFeed R (.ok () (f w)) (.ok () (f' (w.withFeed t)))
  rw [h]
  exact .ok () (f w) (by rwa [hscanner])

theorem repeatWithin {more : Window S → Bool} {more' : Window T → Bool}
    (hmore : ∀ (w : Window S) (t : T), more' (w.withFeed t) = more w) (hp : Interchanges R p p')
    (n : Nat) (items : List α) :
    Interchanges R (repeatWithin more p n items) (JackCompiler.repeatWithin more' p' n items) := by
  induction n generalizing items with
  | zero => exact .pure _
  | succ n ih => exact .ite hmore (hp.bind fun a => ih (a :: items)) (.pure _)

end Rules

end Interchanges

variable [TokenFeed S] [TokenFeed T]

/-- A relation between the states of two feeds under which they stand at the same offset and give the
same answer, and that their next states have again. -/
structure TokenFeed.AnswersAlike (R : S → T → Prop) : Prop where
  offset : ∀ ⦃s t⦄, R s t → TokenFeed.offset t = TokenFeed.offset s
  answer : ∀ ⦃s t⦄, R s t → (TokenFeed.next t).1 = (TokenFeed.next s).1
  next : ∀ ⦃s t⦄, R s t → R (TokenFeed.next s).2 (TokenFeed.next t).2

namespace TokenFeed.AnswersAlike

theorem trans {U : Type} [TokenFeed U] {R : S → T → Prop} {Q : T → U → Prop} (hR : AnswersAlike R)
    (hQ : AnswersAlike Q) : AnswersAlike fun s u => ∃ t, R s t ∧ Q t u where
  offset := by
    rintro s u ⟨t, hs, ht⟩
    rw [hQ.offset ht, hR.offset hs]
  answer := by
    rintro s u ⟨t, hs, ht⟩
    rw [hQ.answer ht, hR.answer hs]
  next := by
    rintro s u ⟨t, hs, ht⟩
    exact ⟨_, hR.next hs, hQ.next ht⟩

variable {R : S → T → Prop} (hR : AnswersAlike R)
include hR

/-! ## Draining -/

theorem drain ⦃s : S⦄ ⦃t : T⦄ (h : R s t) (n : Nat) (tokens : List Token) :
    (drain n t tokens).1 = (JackCompiler.drain n s tokens).1 ∧
      R (JackCompiler.drain n s tokens).2 (JackCompiler.drain n t tokens).2 := by
  induction n generalizing s t tokens with
  | zero => exact ⟨rfl, h⟩
  | succ n ih =>
      have hanswer := hR.answer h
      have hnext := hR.next h
      unfold JackCompiler.drain
      generalize TokenFeed.next s = r at hanswer hnext
      generalize TokenFeed.next t = r' at hanswer hnext
      obtain ⟨answer, s'⟩ := r
      obtain ⟨answer', t'⟩ := r'
      obtain rfl : answer' = answer := hanswer
      cases answer' with
      | error e => exact ⟨rfl, hnext⟩
      | ok token =>
          dsimp only
          split
          · exact ⟨rfl, hnext⟩
          · exact ih hnext _

/-! ## Sliding and repetition -/

theorem remaining (w : Window S) {t : T} (h : R w.scanner t) :
    (w.withFeed t).remaining = w.remaining := by
  unfold Window.remaining
  rw [show (w.withFeed t).scanner = t from rfl, hR.offset h]
  rfl

theorem scan : Interchanges R scan JackCompiler.scan := by
  intro w t h
  have hanswer := hR.answer h
  have hnext := hR.next h
  unfold JackCompiler.scan
  rw [show (w.withFeed t).scanner = t from rfl]
  generalize TokenFeed.next w.scanner = r at hanswer hnext
  generalize TokenFeed.next t = r' at hanswer hnext
  obtain ⟨answer, s⟩ := r
  obtain ⟨answer', t'⟩ := r'
  obtain rfl : answer' = answer := hanswer
  cases answer' with
  | error e => exact .error e { w with scanner := s } hnext
  | ok token => exact .ok token { w with scanner := s, journal := .scanned token :: w.journal } hnext

theorem slide : Interchanges R slide JackCompiler.slide :=
  .ite (fun _ _ => rfl) (hR.scan.bind fun _ => .modify (fun _ _ => rfl) fun _ => rfl)
    (hR.scan.bind fun _ => Interchanges.bind (.modify (fun _ _ => rfl) fun _ => rfl) fun _ =>
      hR.scan.bind fun _ => .modify (fun _ _ => rfl) fun _ => rfl)

theorem take (kind : Kind) : Interchanges R (take kind) (JackCompiler.take kind) := by
  refine .get fun w t h => ?_
  rw [show (w.withFeed t).current = w.current from rfl]
  split
  · exact hR.slide.bind (fun _ => .pure _) w h
  · exact Interchanges.expected _ w h

theorem accept (kind : Kind) : Interchanges R (accept kind) (JackCompiler.accept kind) :=
  .ite (fun _ _ => rfl) (hR.slide.bind fun _ => .pure true) (.pure false)

section Repetition

variable {item : ProductionOver S α} {item' : ProductionOver T α}
  (hitem : Interchanges R item item')
include hitem

theorem repeatWhile {more : Window S → Bool} {more' : Window T → Bool}
    (hmore : ∀ (w : Window S) (t : T), more' (w.withFeed t) = more w) :
    Interchanges R (repeatWhile more item) (JackCompiler.repeatWhile more' item') := by
  refine .get fun w t h => ?_
  rw [hR.remaining w h]
  exact Interchanges.repeatWithin hmore hitem _ _ w h

theorem commaSeparated :
    Interchanges R (commaSeparated item) (JackCompiler.commaSeparated item') :=
  hitem.bind fun _ =>
    (hR.repeatWhile (hR.slide.bind fun _ => hitem) fun _ _ => rfl).bind fun _ => .pure _

theorem parenthesised :
    Interchanges R (parenthesised item) (JackCompiler.parenthesised item') := by
  have hrest (items : List α) : Interchanges R
      (JackCompiler.take (.symbol .rightParen) >>= fun _ => pure items)
      (JackCompiler.take (.symbol .rightParen) >>= fun _ => pure items) :=
    (hR.take _).bind fun _ => .pure items
  exact (hR.take _).bind fun _ =>
    .ite (fun _ _ => rfl) (hrest []) ((hR.commaSeparated hitem).bind hrest)

end Repetition

/-! ## Expressions -/

theorem name : Interchanges R name JackCompiler.name :=
  (hR.take _).bind fun _ => .pure _

theorem integer (digits : String) :
    Interchanges R (integer digits) (JackCompiler.integer digits) := by
  unfold JackCompiler.integer
  cases constantOfDigits? digits with
  | some value => exact hR.slide.bind fun _ => .pure _
  | none => exact fun w _ h => .error _ w h

theorem textConstant (contents : String) :
    Interchanges R (textConstant contents) (JackCompiler.textConstant contents) :=
  (hR.take _).bind fun _ => .pure _

theorem unaryOp : Interchanges R unaryOp JackCompiler.unaryOp := by
  refine .get fun w t h => ?_
  rw [show (w.withFeed t).unary? = w.unary? from rfl]
  refine (?_ : Interchanges R _ _) w h
  split
  · exact hR.slide.bind (fun _ => .pure _)
  · exact .expected _

section Terms

variable {expr : ProductionOver S Expr} {expr' : ProductionOver T Expr}
  (hexpr : Interchanges R expr expr')
include hexpr

theorem call : Interchanges R (call expr) (JackCompiler.call expr') := by
  have hargs := hR.parenthesised hexpr
  exact hR.name.bind fun _ => (hR.accept _).bind fun _ => .ite (fun _ _ => rfl)
    (hR.name.bind fun _ => hargs.bind fun _ => .pure _) (hargs.bind fun _ => .pure _)

theorem element : Interchanges R (element expr) (JackCompiler.element expr') :=
  hR.name.bind fun _ => (hR.take _).bind fun _ => hexpr.bind fun _ => (hR.take _).bind fun _ =>
    .pure _

theorem named : Interchanges R (named expr) (JackCompiler.named expr') := by
  refine .get fun w t h => ?_
  rw [show (w.withFeed t).lookahead = w.lookahead from rfl]
  refine (?_ : Interchanges R _ _) w h
  split
  · exact hR.element hexpr
  · exact (hR.call hexpr).map _
  · exact (hR.call hexpr).map _
  · exact hR.name.map _

theorem parenExpr : Interchanges R (parenExpr expr) (JackCompiler.parenExpr expr') :=
  (hR.take _).bind fun _ => hexpr.bind fun _ => (hR.take _).bind fun _ => .pure _

theorem term : Interchanges R (term expr) (JackCompiler.term expr') := by
  refine .get fun w t h => ?_
  rw [show (w.withFeed t).current = w.current from rfl,
    show (w.withFeed t).contents? = w.contents? from rfl]
  refine (?_ : Interchanges R _ _) w h
  split
  · exact hR.integer _
  · exact hR.textConstant _
  · exact hR.named hexpr
  · exact (hR.parenExpr hexpr).map _
  · split
    · exact hR.slide.bind (fun _ => .pure _)
    · exact .expected _
  · exact .expected _

theorem operand : Interchanges R (operand expr) (JackCompiler.operand expr') :=
  (hR.repeatWhile hR.unaryOp fun _ _ => rfl).bind fun _ => (hR.term hexpr).bind fun _ =>
    .pure _

theorem operation : Interchanges R (operation expr) (JackCompiler.operation expr') := by
  refine .get fun w t h => ?_
  rw [show (w.withFeed t).binary? = w.binary? from rfl]
  refine (?_ : Interchanges R _ _) w h
  split
  · exact hR.slide.bind (fun _ => (hR.operand hexpr).bind fun _ => .pure _)
  · exact .expected _

theorem row : Interchanges R (row expr) (JackCompiler.row expr') :=
  (hR.operand hexpr).bind fun _ =>
    (hR.repeatWhile (hR.operation hexpr) fun _ _ => rfl).bind fun _ => .pure _

end Terms

/-- Productions that bound their depth by the tokens to come. -/
theorem of_depth {p : Nat → ProductionOver S α} {p' : Nat → ProductionOver T α}
    (h : ∀ n, Interchanges R (p n) (p' n)) :
    Interchanges R (MonadState.get >>= fun w => p (w.remaining + 1))
      (MonadState.get >>= fun w => p' (w.remaining + 1)) := by
  refine .get fun w t hw => ?_
  rw [hR.remaining w hw]
  exact h _ w hw

theorem exprWithin (n : Nat) : Interchanges R (exprWithin n) (JackCompiler.exprWithin n) := by
  induction n with
  | zero => exact .expected _
  | succ n ih => exact hR.row ih

theorem expr : Interchanges R expr JackCompiler.expr :=
  hR.of_depth hR.exprWithin

/-! ## Statements -/

theorem blockEnd : Interchanges R blockEnd JackCompiler.blockEnd :=
  .ite (fun _ _ => rfl) hR.slide (.expected _)

section Statements

variable {stmt : ProductionOver S Stmt} {stmt' : ProductionOver T Stmt}
  (hstmt : Interchanges R stmt stmt')
include hstmt

theorem block : Interchanges R (block stmt) (JackCompiler.block stmt') :=
  hR.repeatWhile hstmt fun _ _ => rfl

theorem braced : Interchanges R (braced stmt) (JackCompiler.braced stmt') :=
  (hR.take _).bind fun _ => (hR.block hstmt).bind fun _ => hR.blockEnd.bind fun _ => .pure _

theorem conditional : Interchanges R (conditional stmt) (JackCompiler.conditional stmt') := by
  refine (hR.take _).bind fun _ => (hR.parenExpr hR.expr).bind fun _ =>
    (hR.braced hstmt).bind fun _ => (hR.accept _).bind fun answer => ?_
  cases answer with
  | true => exact ((hR.braced hstmt).map some).bind fun _ => .pure _
  | false => exact .pure _

theorem whileLoop : Interchanges R (whileLoop stmt) (JackCompiler.whileLoop stmt') :=
  (hR.take _).bind fun _ => (hR.parenExpr hR.expr).bind fun _ => (hR.braced hstmt).bind fun _ =>
    .pure _

end Statements

theorem assignment : Interchanges R assignment JackCompiler.assignment := by
  have hrest (target : Name) (index : Option Expr) : Interchanges R
      (JackCompiler.take (.symbol .equals) >>= fun _ => JackCompiler.expr >>= fun value =>
        JackCompiler.take (.symbol .semicolon) >>= fun _ => pure (Stmt.assign target index value))
      (JackCompiler.take (.symbol .equals) >>= fun _ => JackCompiler.expr >>= fun value =>
        JackCompiler.take (.symbol .semicolon) >>= fun _ => pure (Stmt.assign target index value)) :=
    (hR.take _).bind fun _ => hR.expr.bind fun _ => (hR.take _).bind fun _ => .pure _
  refine (hR.take _).bind fun _ => hR.name.bind fun target => (hR.accept _).bind fun answer => ?_
  cases answer with
  | true =>
      exact hR.expr.bind fun index => (hR.take _).bind fun _ => hrest target (some index)
  | false => exact hrest target none

theorem callStatement : Interchanges R callStatement JackCompiler.callStatement :=
  (hR.take _).bind fun _ => (hR.call hR.expr).bind fun _ => (hR.take _).bind fun _ => .pure _

theorem returnStatement : Interchanges R returnStatement JackCompiler.returnStatement := by
  have hrest (value : Option Expr) : Interchanges R
      (JackCompiler.take (.symbol .semicolon) >>= fun _ => pure (Stmt.ret value))
      (JackCompiler.take (.symbol .semicolon) >>= fun _ => pure (Stmt.ret value)) :=
    (hR.take _).bind fun _ => .pure _
  exact (hR.take _).bind fun _ =>
    .ite (fun _ _ => rfl) (hrest none) ((hR.expr.map some).bind hrest)

theorem statementWithin (n : Nat) :
    Interchanges R (statementWithin n) (JackCompiler.statementWithin n) := by
  induction n with
  | zero => exact .expected _
  | succ n ih =>
      refine .get fun w t h => ?_
      rw [show (w.withFeed t).keyword? = w.keyword? from rfl]
      refine (?_ : Interchanges R _ _) w h
      split
      · exact hR.assignment
      · exact hR.conditional ih
      · exact hR.whileLoop ih
      · exact hR.callStatement
      · exact hR.returnStatement
      · exact .expected _

theorem statement : Interchanges R statement JackCompiler.statement :=
  hR.of_depth hR.statementWithin

/-! ## Declarations -/

theorem varType : Interchanges R varType JackCompiler.varType := by
  refine .get fun w t h => ?_
  rw [show (w.withFeed t).current = w.current from rfl]
  refine (?_ : Interchanges R _ _) w h
  split
  · exact hR.name.bind (fun _ => .pure _)
  · split
    · exact hR.slide.bind (fun _ => .pure _)
    · exact .expected _
  · exact .expected _

theorem classVariables : Interchanges R classVariables JackCompiler.classVariables := by
  refine .get fun w t h => ?_
  rw [show (w.withFeed t).keyword? = w.keyword? from rfl]
  refine (?_ : Interchanges R _ _) w h
  split
  · exact hR.slide.bind (fun _ => hR.varType.bind fun _ => (hR.commaSeparated hR.name).bind fun _ =>
      (hR.take _).bind fun _ => .pure _)
  · exact .expected _

theorem parameter : Interchanges R parameter JackCompiler.parameter :=
  hR.varType.bind fun _ => hR.name.bind fun _ => .pure _

theorem localVariables : Interchanges R localVariables JackCompiler.localVariables :=
  (hR.take _).bind fun _ => hR.varType.bind fun _ => (hR.commaSeparated hR.name).bind fun _ =>
    (hR.take _).bind fun _ => .pure _

theorem body : Interchanges R body JackCompiler.body :=
  (hR.take _).bind fun _ => (hR.repeatWhile hR.localVariables fun _ _ => rfl).bind fun _ =>
    (hR.block hR.statement).bind fun _ => hR.blockEnd.bind fun _ => .pure _

theorem returnType : Interchanges R returnType JackCompiler.returnType := by
  refine (hR.accept _).bind fun answer => ?_
  cases answer with
  | true => exact .pure _
  | false => exact hR.varType.bind fun _ => .pure _

theorem subroutine : Interchanges R subroutine JackCompiler.subroutine := by
  refine .get fun w t h => ?_
  rw [show (w.withFeed t).keyword? = w.keyword? from rfl]
  refine (?_ : Interchanges R _ _) w h
  split
  · exact hR.slide.bind (fun _ => hR.returnType.bind fun _ => hR.name.bind fun _ =>
      (Interchanges.record _).bind fun _ => (hR.parenthesised hR.parameter).bind fun _ =>
        hR.body.bind fun _ => .pure _)
  · exact .expected _

theorem member : Interchanges R member JackCompiler.member :=
  .ite (fun _ _ => rfl) (hR.classVariables.bind fun _ => .pure _)
    (.ite (fun _ _ => rfl) (hR.subroutine.bind fun _ => .pure _) (.expected _))

/-- A class is read the same from either feed. -/
theorem classTree : Interchanges R classTree JackCompiler.classTree := by
  have hmore (w : Window S) (t : T) : (w.withFeed t).hasMore = w.hasMore := rfl
  have hend (n : Name) (members : List Member) :=
    let tree := ClassTree.mk n (members.filterMap Member.vars?) (members.filterMap Member.subroutine?)
    Interchanges.ite (R := R) hmore
      ((Interchanges.expected (α := PUnit) "end-of-file after class").bind fun _ => .pure tree)
      (.pure tree)
  have hmembers : Interchanges R
      (JackCompiler.repeatWhile (fun w => !w.atSymbol .rightBrace) JackCompiler.member)
      (JackCompiler.repeatWhile (fun w => !w.atSymbol .rightBrace) JackCompiler.member) :=
    hR.repeatWhile hR.member fun _ _ => rfl
  have hclass := (hR.take (.keyword .classDecl)).bind fun _ => hR.name.bind fun n =>
    (Interchanges.record (R := R) (.readingClass n.text)).bind fun _ =>
      (hR.take (.symbol .leftBrace)).bind fun _ => hmembers.bind fun members =>
        (hR.take (.symbol .rightBrace)).bind fun _ => hend n members
  exact .ite (fun _ _ => rfl) (hR.slide.bind fun _ => hclass) hclass

end TokenFeed.AnswersAlike

end JackCompiler
