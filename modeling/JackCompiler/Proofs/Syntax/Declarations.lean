import JackCompiler.Grammar.Declaration
import JackCompiler.Proofs.Syntax.Statements

/-!
# Reading declarations

Declarations are read as statements are, by the word that begins them. A class is read up to its
last brace; only then is the end of the source asked for.

## Implementation notes

Notes in the journal leave the view of a window as it is.
-/

namespace JackCompiler

open Phrase Production

variable {α β γ : Type} {n : Nat}

/-! ## Choices and notes -/

section Choices

variable {p q : Production α} {L M : Phrase α} {first second go : Kind → Bool}

/-- One of two phrases that the current token tells apart. -/
theorem choice_reads {begins : Window → Bool} (hbegins : ∀ w, begins w = first w.current.kind)
    (hL : Begins first L) (hM : Begins second M)
    (hdisjoint : ∀ k, first k = true → second k = false) (hp : Reads n p L go)
    (hq : Reads n q M go) :
    Reads n (get >>= fun w => if begins w then p else q) (fun us a => L us a ∨ M us a) go := by
  obtain ⟨us, a, ha⟩ := hp.productive
  refine ⟨⟨us, a, .inl ha⟩, fun {w γ K} hw hn hK => ?_⟩
  by_cases hwb : begins w = true
  · refine Meets.of_eq ?_ (get_if_pos hwb _ _)
    rw [hbegins] at hwb
    exact Meets.drop hM (hdisjoint _ hwb) (fun _ _ => .inl) (fun _ _ h => h) (hp.meets hw hn hK)
  · refine Meets.of_eq ?_ (get_if_neg hwb _ _)
    rw [hbegins, Bool.not_eq_true] at hwb
    exact Meets.drop hL hwb (fun _ _ => .inr) (fun _ _ => Or.symm) (hq.meets hw hn hK)

/-- A phrase or a complaint. -/
theorem guarded_reads {begins : Window → Bool} {what : String}
    (hbegins : ∀ w, begins w = first w.current.kind) (hM : Begins first M) (hq : Reads n q M go) :
    Reads n (get >>= fun w => if begins w then q else expected what) M go := by
  refine ⟨hq.productive, fun {w γ K} hw hn hK => ?_⟩
  by_cases hwb : begins w = true
  · exact Meets.of_eq (hq.meets hw hn hK) (get_if_pos hwb _ _)
  · refine Meets.of_eq ?_ (get_if_neg hwb _ _)
    rw [hbegins, Bool.not_eq_true] at hwb
    exact Meets.complain_of_begins hM hwb hq.productive hK.productive

/-- A note in the journal is read from nothing. -/
theorem record_reads (n : Nat) {r : Record} (hr : r.level = .debug) (go : Kind → Bool) :
    Reads n (record r) (empty ()) go := by
  refine ⟨.empty (), fun {w γ K} hw _ _ => ?_⟩
  have hmoves : w.Moves [] { w with journal := r :: w.journal } :=
    ⟨.refl _, ⟨hw.primed, hw.size_eq, hw.current, hw.lookahead⟩, rfl,
      fun _ htells => (List.append_nil _).symm ▸ htells.note hr⟩
  refine .ok hmoves ⟨rfl, rfl⟩ fun ws c _ hc => ?_
  rwa [empty_bind] at hc

theorem Reads.record_bind {r : Record} (hr : r.level = .debug) (hq : Reads n q M go) :
    Reads n (record r >>= fun _ => q) M go := by
  have hboth := (record_reads n hr fun _ => false).bind_any fun _ => hq
  rwa [empty_bind] at hboth

end Choices

/-! ## Types and lines of variables -/

/-- A token that begins a type. -/
def Kind.beginsType : Kind → Bool
  | identifier => true
  | keyword k => (VarType.ofKeyword? k).isSome
  | _ => false

theorem isType_iff {us : List Token} {type : VarType} :
    IsType us type ↔ ∃ t, us = [t] ∧ (t.kind = .identifier ∧ type = .object t.text ∨
      ∃ k, t.kind = .keyword k ∧ VarType.ofKeyword? k = some type) := by
  constructor
  · intro h
    cases h with
    | object ht => exact ⟨_, rfl, .inl ⟨ht, rfl⟩⟩
    | int ht | char ht | boolean ht => exact ⟨_, rfl, .inr ⟨_, ht, rfl⟩⟩
  · rintro ⟨t, rfl, ⟨ht, rfl⟩ | ⟨k, ht, hk⟩⟩
    · exact .object ht
    · cases k <;> cases hk
      · exact .int ht
      · exact .char ht
      · exact .boolean ht

theorem isType_begins : Begins Kind.beginsType IsType := by
  intro us type h
  obtain ⟨t, rfl, ⟨ht, -⟩ | ⟨k, ht, hk⟩⟩ := isType_iff.mp h
  · exact ⟨t, [], rfl, by rw [ht]; rfl⟩
  · exact ⟨t, [], rfl, by rw [ht, Kind.beginsType, hk]; rfl⟩

theorem isType_productive : Productive IsType := by
  obtain ⟨_, t, rfl, ht⟩ := Productive.one .identifier
  exact ⟨[t], _, .object ht⟩

/-- A type. -/
theorem varType_reads (n : Nat) (go : Kind → Bool) : Reads n varType IsType go := by
  refine ⟨isType_productive, fun {w γ K} hw hn hK => ?_⟩
  have hother (hk : w.current.kind.beginsType = false) :
      Meets (expected "a type") w IsType K :=
    Meets.complain_of_begins isType_begins hk isType_productive hK.productive
  cases hk : w.current.kind with
  | identifier =>
      have hname := (name_reads n go).bind_pure fun name => VarType.object name.text
      refine Meets.of_eq ?_ (by rw [varType, get_bind, hk])
      refine Meets.restrict isType_begins ?_ ?_ (hname.meets hw hn hK)
      · intro us type h
        obtain ⟨_, ⟨ht⟩, rfl⟩ := bind_empty_iff.mp h
        exact .object ht
      · intro us type h
        obtain ⟨t, hus, ⟨ht, rfl⟩ | ⟨k, ht, -⟩⟩ := isType_iff.mp h <;>
          obtain ⟨rfl, rfl⟩ := List.cons.inj hus
        · exact bind_empty_iff.mpr ⟨_, .token ht, rfl⟩
        · rw [hk] at ht
          cases ht
  | keyword k =>
      cases htype : VarType.ofKeyword? k with
      | none =>
          refine Meets.of_eq (hother ?_) ?_
          · rw [hk, Kind.beginsType, htype]
            rfl
          · rw [varType, get_bind, hk]
            simp only [htype]
      | some type =>
          have hword : Meets (slide >>= fun _ => pure type) w IsType K := by
            refine Meets.restrict isType_begins ?_ ?_
              (Meets.slide_pure hw (Kind.Passable.of_eq hk) type hK.productive)
            · rintro us _ ⟨rfl, rfl⟩
              exact isType_iff.mpr ⟨_, rfl, .inr ⟨k, hk, htype⟩⟩
            · intro us type' h
              obtain ⟨t, hus, ⟨ht, -⟩ | ⟨k', ht, htype'⟩⟩ := isType_iff.mp h <;>
                obtain ⟨rfl, rfl⟩ := List.cons.inj hus <;> rw [hk] at ht <;> cases ht
              exact ⟨rfl, Option.some_inj.mp (htype'.symm.trans htype)⟩
          apply hword.of_eq
          rw [varType, get_bind, hk]
          simp only [htype]
  | symbol _ | number | text | finish =>
      exact Meets.of_eq (hother (by rw [hk]; rfl)) (by rw [varType, get_bind, hk])

/-- A type, names of that type and a semicolon. -/
def typedNames (f : VarType → List Name → β) : Phrase β :=
  Phrase.bind IsType fun type => Phrase.bind (Separated IsName) fun names =>
    (one (.symbol .semicolon)).bind fun _ => empty (f type names)

theorem typedNames_reads (n : Nat) (f : VarType → List Name → β) (go : Kind → Bool) :
    Reads n (varType >>= fun type => commaSeparated name >>= fun names =>
      take (.symbol .semicolon) >>= fun _ => pure (f type names)) (typedNames f) go := by
  have hnames := commaSeparated_reads (name_reads n fun _ => false) rfl
  exact (varType_reads n _).bind_any fun type =>
    hnames.bind_begins (fun names => .last n _ _) (fun _ => (Begins.one _).bind)
      fun k hk => eq_of_beq hk ▸ rfl

theorem ClassVariableKind.ofKeyword?_eq_some_iff (w : Window) (kind : ClassVariableKind) :
    w.keyword?.bind ClassVariableKind.ofKeyword? = some kind ↔
      w.current.kind = .keyword kind.keyword := by
  rw [Window.keyword?]
  cases w.current.kind with
  | keyword k => cases k <;> cases kind <;> decide
  | _ => simp [Kind.keyword?]

theorem SubroutineKind.ofKeyword?_eq_some_iff (w : Window) (kind : SubroutineKind) :
    w.keyword?.bind SubroutineKind.ofKeyword? = some kind ↔
      w.current.kind = .keyword kind.keyword := by
  rw [Window.keyword?]
  cases w.current.kind with
  | keyword k => cases k <;> cases kind <;> decide
  | _ => simp [Kind.keyword?]

theorem isClassVariables_eq : IsClassVariables =
    announcedPhrase (fun kind => .keyword kind.keyword) fun kind =>
      typedNames fun type names => ⟨kind, type, names⟩ := by
  ext us v
  constructor
  · rintro ⟨hk, htype, hnames, hs⟩
    refine announcedPhrase_iff.mpr ⟨_, _, _, rfl, hk, bind_mk htype (bind_mk hnames ?_)⟩
    exact one_bind_empty_iff.mpr ⟨_, rfl, hs, rfl⟩
  · intro h
    obtain ⟨kind, k, _, rfl, hk, us, _, type, rfl, htype, vs, _, names, rfl, hnames, h⟩ :=
      announcedPhrase_iff.mp h
    obtain ⟨s, rfl, hs, rfl⟩ := one_bind_empty_iff.mp h
    exact .line hk htype hnames hs

theorem classVariables_eq : classVariables =
    announced (fun w => w.keyword?.bind ClassVariableKind.ofKeyword?) "'static' or 'field'"
      fun kind => varType >>= fun type => commaSeparated name >>= fun names =>
        take (.symbol .semicolon) >>= fun _ => pure ⟨kind, type, names⟩ := by
  funext w
  rw [classVariables, announced, get_bind, get_bind]
  cases w.keyword?.bind ClassVariableKind.ofKeyword? <;> rfl

/-- A line of class variables. -/
theorem classVariables_reads (n : Nat) (go : Kind → Bool) :
    Reads n classVariables IsClassVariables go := by
  rw [isClassVariables_eq, classVariables_eq]
  exact announced_reads ClassVariableKind.ofKeyword?_eq_some_iff .static _
    fun kind => typedNames_reads n _ go

theorem isLocalVariables_eq : IsLocalVariables =
    (one (.keyword .var)).bind fun _ => typedNames LocalVariables.mk := by
  ext us v
  constructor
  · rintro ⟨hk, htype, hnames, hs⟩
    exact one_bind_mk hk (bind_mk htype (bind_mk hnames (one_bind_empty_iff.mpr ⟨_, rfl, hs, rfl⟩)))
  · intro h
    obtain ⟨k, _, rfl, hk, us, _, type, rfl, htype, vs, _, names, rfl, hnames, h⟩ :=
      one_bind_iff.mp h
    obtain ⟨s, rfl, hs, rfl⟩ := one_bind_empty_iff.mp h
    exact .line hk htype hnames hs

theorem isLocalVariables_begins : Begins (· == .keyword .var) IsLocalVariables := by
  rw [isLocalVariables_eq]
  exact (Begins.one _).bind

/-- A line of local variables. -/
theorem localVariables_reads (n : Nat) (go : Kind → Bool) :
    Reads n localVariables IsLocalVariables go := by
  rw [isLocalVariables_eq]
  exact .take_bind fun _ => typedNames_reads n _ go

/-! ## Subroutines -/

theorem isParameter_eq : IsParameter = Phrase.bind IsType fun type => Phrase.bind IsName fun n =>
    empty ⟨type, n⟩ := by
  ext us p
  constructor
  · rintro ⟨htype, hn⟩
    exact bind_mk htype (bind_empty_iff.mpr ⟨_, hn, rfl⟩)
  · intro h
    obtain ⟨us, _, type, rfl, htype, h⟩ := h
    obtain ⟨n, hn, rfl⟩ := bind_empty_iff.mp h
    exact .typed htype hn

/-- The parameters of a subroutine. -/
theorem parameters_reads (n : Nat) (go : Kind → Bool) :
    Reads n parameters (Parenthesised IsParameter) go := by
  have hparameter : Reads n parameter IsParameter fun _ => false := by
    rw [isParameter_eq]
    exact (varType_reads n _).bind_any fun type => (name_reads n _).bind_pure _
  have hfirst : Begins (· != .symbol .rightParen) IsParameter := by
    rw [isParameter_eq]
    exact (isType_begins.mono fun k hk => by rw [bne_iff_ne]; rintro rfl; cases hk).bind
  exact parenthesised_reads hparameter hfirst rfl rfl go

theorem isBody_eq : IsBody = (one (.symbol .leftBrace)).bind fun _ =>
    Phrase.bind (Repeated IsLocalVariables) fun locals => Phrase.bind (Repeated IsStmt) fun stmts =>
      (one (.symbol .rightBrace)).bind fun _ => empty ⟨locals, stmts⟩ := by
  ext us b
  constructor
  · rintro ⟨hl, hlocals, hstmts, hr⟩
    refine one_bind_mk hl (bind_mk hlocals (bind_mk hstmts ?_))
    exact one_bind_empty_iff.mpr ⟨_, rfl, hr, rfl⟩
  · intro h
    obtain ⟨l, _, rfl, hl, us, _, locals, rfl, hlocals, vs, _, stmts, rfl, hstmts, h⟩ :=
      one_bind_iff.mp h
    obtain ⟨r, rfl, hr, rfl⟩ := one_bind_empty_iff.mp h
    exact .braces hl hlocals hstmts hr

/-- The braces of a subroutine. -/
theorem body_reads (n : Nat) (go : Kind → Bool) : Reads n body IsBody go := by
  have hlocals : Reads n (repeatWhile (fun w => w.isAt (.keyword .var)) localVariables)
      (Repeated IsLocalVariables) fun k => k == .keyword .var || false :=
    repeatWhile_reads isLocalVariables_begins (fun _ _ => rfl) (fun _ => rfl)
      fun hw hn _ hK => (localVariables_reads n _).meets hw hn hK
  have hstmts (locals : List LocalVariables) :=
    (block_reads (statement_reads n)).bind_begins
      (fun stmts => blockEnd_pure_reads n (Body.mk locals stmts) go) (fun _ => (Begins.one _).bind)
      fun k hk => eq_of_beq hk ▸ rfl
  have hfirst (locals : List LocalVariables) :
      Begins (fun k => k.isKeyword Keyword.beginsStatement || k == .symbol .rightBrace)
        (Phrase.bind (Repeated IsStmt) fun stmts =>
          (one (.symbol .rightBrace)).bind fun _ => empty (Body.mk locals stmts)) :=
    IsStmt.begins.repeated_bind fun _ => (Begins.one _).bind
  rw [isBody_eq]
  refine .take_bind fun _ => hlocals.bind_begins hstmts hfirst fun k hk => ?_
  rw [Bool.or_false, beq_eq_false_iff_ne]
  rintro rfl
  cases hk

theorem returnType_reads (n : Nat) (go : Kind → Bool) : Reads n returnType IsReturnType go := by
  have heq : (returnType : Production (Option VarType)) = get >>= fun w => if w.isAt (.keyword .void)
      then take (.keyword .void) >>= fun _ => pure none
      else varType >>= fun type => pure (some type) := by
    rw [returnType, accept_bind_eq]
    rfl
  have hphrase : IsReturnType = fun us returns =>
      (one (.keyword .void)).bind (fun _ => empty none) us returns ∨
        Phrase.bind IsType (fun type => empty (some type)) us returns := by
    ext us returns
    constructor
    · rintro (ht | htype)
      · exact .inl (one_bind_empty_iff.mpr ⟨_, rfl, ht, rfl⟩)
      · exact .inr (bind_empty_iff.mpr ⟨_, htype, rfl⟩)
    · intro h
      rcases h with h | h
      · obtain ⟨t, rfl, ht, rfl⟩ := one_bind_empty_iff.mp h
        exact .void ht
      · obtain ⟨type, htype, rfl⟩ := bind_empty_iff.mp h
        exact .type htype
  rw [heq, hphrase]
  refine choice_reads (fun _ => rfl) (Begins.one _).bind isType_begins.bind (fun k hk => ?_)
    (.last n _ none) ((varType_reads n go).bind_pure some)
  rw [eq_of_beq hk]
  rfl

/-- What follows the word that announces a subroutine of a kind. -/
def subroutineRest (kind : SubroutineKind) : Phrase Subroutine :=
  Phrase.bind IsReturnType fun returns => Phrase.bind IsName fun n =>
    Phrase.bind (Parenthesised IsParameter) fun ps => Phrase.bind IsBody fun b =>
      empty ⟨kind, returns, n, ps, b⟩

theorem isSubroutine_eq :
    IsSubroutine = announcedPhrase (fun kind => .keyword kind.keyword) subroutineRest := by
  ext us s
  constructor
  · rintro ⟨hk, hreturns, hn, hps, hb⟩
    refine announcedPhrase_iff.mpr ⟨_, _, _, rfl, hk, bind_mk hreturns (bind_mk hn ?_)⟩
    exact bind_mk hps (bind_empty_iff.mpr ⟨_, hb, rfl⟩)
  · intro h
    obtain ⟨kind, k, _, rfl, hk, us, _, returns, rfl, hreturns, vs, _, n, rfl, hn, ws, _, ps, rfl,
      hps, h⟩ := announcedPhrase_iff.mp h
    obtain ⟨b, hb, rfl⟩ := bind_empty_iff.mp h
    exact .declared hk hreturns hn hps hb

theorem subroutine_eq : subroutine =
    announced (fun w => w.keyword?.bind SubroutineKind.ofKeyword?)
      "'constructor', 'function' or 'method'" fun kind => returnType >>= fun returns =>
        name >>= fun n => record (.readingSubroutine kind n.text) >>= fun _ =>
          parameters >>= fun ps => body >>= fun b => pure ⟨kind, returns, n, ps, b⟩ := by
  funext w
  rw [subroutine, announced, get_bind, get_bind]
  cases w.keyword?.bind SubroutineKind.ofKeyword? <;> rfl

/-- A subroutine. -/
theorem subroutine_reads (n : Nat) (go : Kind → Bool) : Reads n subroutine IsSubroutine go := by
  rw [isSubroutine_eq, subroutine_eq]
  refine announced_reads SubroutineKind.ofKeyword?_eq_some_iff .function _ fun kind => ?_
  refine (returnType_reads n _).bind_any fun returns => (name_reads n _).bind_any fun name => ?_
  exact .record_bind rfl ((parameters_reads n _).bind_any fun ps => (body_reads n go).bind_pure _)

/-! ## Classes -/

theorem isMember_eq : IsMember = fun us m =>
    Phrase.bind IsClassVariables (fun v => empty (.vars v)) us m ∨
      Phrase.bind IsSubroutine (fun s => empty (.subroutine s)) us m := by
  ext us m
  constructor
  · rintro (hv | hs)
    · exact .inl (bind_empty_iff.mpr ⟨_, hv, rfl⟩)
    · exact .inr (bind_empty_iff.mpr ⟨_, hs, rfl⟩)
  · intro h
    rcases h with h | h
    · obtain ⟨v, hv, rfl⟩ := bind_empty_iff.mp h
      exact .vars hv
    · obtain ⟨s, hs, rfl⟩ := bind_empty_iff.mp h
      exact .subroutine hs

theorem isClassVariables_begins :
    Begins (Kind.isKeyword Keyword.beginsClassVariable) IsClassVariables := by
  rw [isClassVariables_eq]
  exact announcedPhrase_begins fun kind => by cases kind <;> rfl

theorem isSubroutine_begins : Begins (Kind.isKeyword Keyword.beginsSubroutine) IsSubroutine := by
  rw [isSubroutine_eq]
  exact announcedPhrase_begins fun kind => by cases kind <;> rfl

theorem isMember_begins : Begins (· != .symbol .rightBrace) IsMember := by
  rw [isMember_eq]
  rintro us m (h | h)
  · obtain ⟨t, vs, rfl, hk⟩ := isClassVariables_begins.bind _ _ h
    refine ⟨t, vs, rfl, bne_iff_ne.mpr fun heq => ?_⟩
    rw [heq] at hk
    cases hk
  · obtain ⟨t, vs, rfl, hk⟩ := isSubroutine_begins.bind _ _ h
    refine ⟨t, vs, rfl, bne_iff_ne.mpr fun heq => ?_⟩
    rw [heq] at hk
    cases hk

/-- A member of a class. -/
theorem member_reads (n : Nat) (go : Kind → Bool) : Reads n member IsMember go := by
  have heq : (member : Production Member) = get >>= fun w => if w.atKeyword Keyword.beginsClassVariable
      then classVariables >>= fun v => pure (.vars v)
      else get >>= fun w => if w.atKeyword Keyword.beginsSubroutine
        then subroutine >>= fun s => pure (.subroutine s)
        else expected ("class variable, subroutine or " ++ (Kind.symbol .rightBrace).description) :=
    rfl
  rw [heq, isMember_eq]
  refine choice_reads (fun _ => rfl) isClassVariables_begins.bind isSubroutine_begins.bind ?_
    ((classVariables_reads n go).bind_pure _)
    (guarded_reads (fun _ => rfl) isSubroutine_begins.bind ((subroutine_reads n go).bind_pure _))
  intro k hk
  obtain ⟨word, rfl, hword⟩ := Kind.isKeyword_iff.mp hk
  cases word <;> first | rfl | cases hword

theorem isClass_eq : IsClass = (one (.keyword .classDecl)).bind fun _ => Phrase.bind IsName fun n =>
    (one (.symbol .leftBrace)).bind fun _ => Phrase.bind (Repeated IsMember) fun members =>
      (one (.symbol .rightBrace)).bind fun _ => empty (n, members) := by
  ext us c
  constructor
  · rintro ⟨hk, hn, ⟨hl, hmembers, hr⟩⟩
    refine one_bind_mk hk (bind_mk hn (one_bind_mk hl (bind_mk hmembers ?_)))
    exact one_bind_empty_iff.mpr ⟨_, rfl, hr, rfl⟩
  · intro h
    obtain ⟨k, _, rfl, hk, us, _, n, rfl, hn, h⟩ := one_bind_iff.mp h
    obtain ⟨l, _, rfl, hl, vs, _, members, rfl, hmembers, h⟩ := one_bind_iff.mp h
    obtain ⟨r, rfl, hr, rfl⟩ := one_bind_empty_iff.mp h
    exact .declared hk hn (.braces hl hmembers hr)

/-- Read a class up to its last brace. -/
def classMembers : Production (Name × List Member) := do
  let _ ← take (.keyword .classDecl)
  let n ← name
  record (.readingClass n.text)
  let _ ← take (.symbol .leftBrace)
  let members ← repeatWhile (fun w => !w.atSymbol .rightBrace) member
  let _ ← take (.symbol .rightBrace)
  return (n, members)

/-- A class. -/
theorem classMembers_reads (n : Nat) (go : Kind → Bool) : Reads n classMembers IsClass go := by
  have hmembers : Reads n (repeatWhile (fun w => !w.atSymbol .rightBrace) member)
      (Repeated IsMember) fun k => k != .symbol .rightBrace || false :=
    repeatWhile_reads isMember_begins (fun _ _ => rfl) (fun _ => rfl)
      fun hw hn _ hK => (member_reads n _).meets hw hn hK
  rw [isClass_eq]
  refine .take_bind fun _ => (name_reads n _).bind_any fun name => .record_bind rfl ?_
  refine .take_bind fun _ => hmembers.bind_begins (fun members => .last n _ _)
    (fun _ => (Begins.one _).bind) fun k hk => ?_
  rw [eq_of_beq hk]
  rfl

end JackCompiler
