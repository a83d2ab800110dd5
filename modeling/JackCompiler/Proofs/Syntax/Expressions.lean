import JackCompiler.Grammar.Expression
import JackCompiler.Proofs.Syntax.Productions
import Mathlib.Data.Nat.Digits.Lemmas

/-!
# Reading expressions

The productions of terms, operands and rows read the phrases of the grammar, and from each bound on
the depth to the next one so does the production of expressions.

## Implementation notes

After a name a bracket, a parenthesis or a dot is taken for more of the term, and after an operand a
binary operator for more of the row. A production that sees a name looks one token further; it is
right because the name is passed in every case and the token after it is current then.
-/

namespace JackCompiler

open Phrase Production

variable {α β γ : Type} {n : Nat}

/-! ## Kinds of tokens -/

namespace Kind

/-- A token that continues a term after a name. -/
def extendsName : Kind → Bool
  | symbol .leftBracket | symbol .leftParen | symbol .dot => true
  | _ => false

/-- The unary operator that a token writes. -/
def unary? : Kind → Option UnaryOp
  | symbol s => UnaryOp.ofSymbol? s
  | _ => none

/-- The binary operator that a token writes. -/
def binary? : Kind → Option BinaryOp
  | symbol s => BinaryOp.ofSymbol? s
  | _ => none

/-- A token that writes a unary operator. -/
def isUnary (k : Kind) : Bool :=
  k.unary?.isSome

/-- A token that writes a binary operator. -/
def isBinary (k : Kind) : Bool :=
  k.binary?.isSome

/-- A token that continues an expression. -/
def extendsExpr (k : Kind) : Bool :=
  k.isBinary || k.extendsName

/-- A token that begins a term. -/
def beginsTerm : Kind → Bool
  | number | text | identifier | symbol .leftParen => true
  | keyword k => (WordConstant.ofKeyword? k).isSome
  | _ => false

/-- A token that begins an expression. -/
def beginsExpr (k : Kind) : Bool :=
  k.isUnary || k.beginsTerm

theorem unary?_eq_some_iff {k : Kind} {op : UnaryOp} :
    k.unary? = some op ↔ k = symbol op.symbol := by
  cases k with
  | symbol s =>
      rw [unary?, UnaryOp.ofSymbol?_eq_some_iff, symbol.injEq]
      exact eq_comm
  | _ => simp [unary?]

theorem binary?_eq_some_iff {k : Kind} {op : BinaryOp} :
    k.binary? = some op ↔ k = symbol op.symbol := by
  cases k with
  | symbol s =>
      rw [binary?, BinaryOp.ofSymbol?_eq_some_iff, symbol.injEq]
      exact eq_comm
  | _ => simp [binary?]

theorem isUnary_iff {k : Kind} : k.isUnary = true ↔ ∃ op : UnaryOp, k = symbol op.symbol := by
  simp only [isUnary, Option.isSome_iff_exists, unary?_eq_some_iff]

theorem isBinary_iff {k : Kind} : k.isBinary = true ↔ ∃ op : BinaryOp, k = symbol op.symbol := by
  simp only [isBinary, Option.isSome_iff_exists, binary?_eq_some_iff]

theorem isKeyword_iff {p : Keyword → Bool} {k : Kind} :
    k.isKeyword p = true ↔ ∃ word, k = keyword word ∧ p word = true := by
  cases k <;> simp [isKeyword, keyword?]

theorem isUnary_of_beginsTerm {k : Kind} (h : k.beginsTerm = true) : k.isUnary = false := by
  rw [← Bool.not_eq_true]
  rintro hunary
  obtain ⟨op, rfl⟩ := isUnary_iff.mp hunary
  cases op <;> cases h

theorem extendsName_of_isBinary {k : Kind} (h : k.isBinary = true) : k.extendsName = false := by
  obtain ⟨op, rfl⟩ := isBinary_iff.mp h
  cases op <;> rfl

end Kind

theorem WordConstant.ofKeyword?_eq_some_iff {k : Keyword} {c : WordConstant} :
    WordConstant.ofKeyword? k = some c ↔ k = c.keyword := by
  cases k <;> cases c <;> decide

/-! ## Names -/

theorem isName_eq : IsName = (one .identifier).bind fun t => empty t.toName := by
  ext us n
  constructor
  · rintro ⟨ht⟩
    exact one_bind_iff.mpr ⟨_, [], rfl, ht, rfl, rfl⟩
  · intro h
    obtain ⟨t, _, rfl, ht, rfl, rfl⟩ := one_bind_iff.mp h
    exact .token ht

theorem isName_begins : Begins (· == .identifier) IsName := by
  rw [isName_eq]
  exact (Begins.one _).bind

theorem isName_productive : Productive IsName := by
  rw [isName_eq]
  exact (Productive.one _).bind fun t => .empty t.toName

theorem name_reads (n : Nat) (go : Kind → Bool) : Reads n name IsName go := by
  rw [isName_eq]
  exact .take_bind fun t => .pure n t.toName go

/-! ## Constants -/

theorem decimalValue_eq (digits : String) :
    decimalValue digits = digits.toList.foldl (fun n c => 10 * n + (c.toNat - '0'.toNat)) 0 := by
  unfold decimalValue
  induction digits.toList using List.reverseRecOn with
  | nil => rfl
  | append_singleton cs c ih =>
      rw [List.reverse_concat, List.map_cons, Nat.ofDigits_cons, ih, List.foldl_append,
        List.foldl_cons, List.foldl_nil]
      exact Nat.add_comm _ _

theorem constantOfDigits?_eq_some_iff {digits : String} {value : UInt16} :
    constantOfDigits? digits = some value ↔
      decimalValue digits = value.toNat ∧ value.toNat ≤ maxConstant := by
  unfold constantOfDigits?
  rw [← decimalValue_eq]
  dsimp only
  split
  · next hle =>
    have htoNat : (UInt16.ofNat (decimalValue digits)).toNat = decimalValue digits :=
      UInt16.toNat_ofNat_of_lt' (Nat.lt_of_le_of_lt hle (by decide))
    rw [Option.some_inj]
    constructor
    · rintro rfl
      exact ⟨htoNat.symm, htoNat.symm ▸ hle⟩
    · rintro ⟨hvalue, -⟩
      exact UInt16.toNat_inj.mp (htoNat.trans hvalue)
  · next hgt =>
    exact ⟨by simp, fun h => absurd (h.1 ▸ h.2) hgt⟩

/-! ## Shapes of the grammar -/

theorem isOperand_eq : IsOperand =
    Phrase.bind (Repeated IsUnary) fun unary => Phrase.bind IsTerm fun t => empty (unary, t) := by
  ext us operand
  constructor
  · rintro ⟨hunary, ht⟩
    exact ⟨_, _, _, rfl, hunary, _, [], _, (List.append_nil _).symm, ht, rfl, rfl⟩
  · rintro ⟨us, _, unary, rfl, hunary, vs, _, t, rfl, ht, rfl, rfl⟩
    simpa using IsOperand.term hunary ht

theorem isExpr_eq : IsExpr = Phrase.bind IsOperand fun operand =>
    Phrase.bind (Repeated IsOperation) fun rest => empty (.ofRow operand.1 operand.2 rest) := by
  ext us e
  constructor
  · rintro ⟨hoperand, hrest⟩
    exact ⟨_, _, _, rfl, hoperand, _, [], _, (List.append_nil _).symm, hrest, rfl, rfl⟩
  · rintro ⟨us, _, operand, rfl, hoperand, vs, _, rest, rfl, hrest, rfl, rfl⟩
    simpa using IsExpr.row hoperand hrest

/-- What follows the first name of a call. -/
def callTail (first : Name) : Phrase Call := fun us c =>
  ((one (.symbol .dot)).bind fun _ => Phrase.bind IsName fun n =>
    Phrase.bind (Parenthesised IsExpr) fun args => empty (.mk (some first) n args)) us c ∨
  Phrase.bind (Parenthesised IsExpr) (fun args => empty (.mk none first args)) us c

theorem isCall_eq : IsCall = Phrase.bind IsName callTail := by
  ext us c
  constructor
  · rintro (⟨hn, hargs⟩ | ⟨hreceiver, hdot, hn, hargs⟩)
    · exact ⟨_, _, _, rfl, hn, .inr ⟨_, [], _, (List.append_nil _).symm, hargs, rfl, rfl⟩⟩
    · refine ⟨_, _, _, rfl, hreceiver, .inl (one_bind_iff.mpr ⟨_, _, rfl, hdot, ?_⟩)⟩
      exact ⟨_, _, _, rfl, hn, _, [], _, (List.append_nil _).symm, hargs, rfl, rfl⟩
  · rintro ⟨us, _, first, rfl, hfirst, h | ⟨vs, _, args, rfl, hargs, rfl, rfl⟩⟩
    · obtain ⟨dot, _, rfl, hdot, vs, _, n, rfl, hn, ws, _, args, rfl, hargs, rfl, rfl⟩ :=
        one_bind_iff.mp h
      simpa using IsCall.qualified hfirst hdot hn hargs
    · simpa using IsCall.plain hfirst hargs

/-- What follows the name of an element. -/
def elementTail (array : Name) : Phrase Term :=
  (one (.symbol .leftBracket)).bind fun _ => Phrase.bind IsExpr fun index =>
    (one (.symbol .rightBracket)).bind fun _ => empty (.element array index)

/-- What follows the first name of a term that is a call. -/
def callTermTail (first : Name) : Phrase Term :=
  (callTail first).bind fun c => empty (.call c)

/-- What follows the first name of a term that goes on after it. -/
def longTail (first : Name) : Phrase Term :=
  fun us t => elementTail first us t ∨ callTermTail first us t

/-- What follows the name at the beginning of a term. -/
def nameTail (n : Name) : Phrase Term := fun us t =>
  us = [] ∧ t = .variable n ∨ longTail n us t

theorem isCondition_eq : IsCondition = (one (.symbol .leftParen)).bind fun _ =>
    Phrase.bind IsExpr fun cond => (one (.symbol .rightParen)).bind fun _ => empty cond := by
  ext us cond
  constructor
  · rintro ⟨hl, hcond, hr⟩
    exact one_bind_iff.mpr ⟨_, _, rfl, hl, _, _, _, rfl, hcond,
      one_bind_iff.mpr ⟨_, [], rfl, hr, rfl, rfl⟩⟩
  · intro h
    obtain ⟨l, _, rfl, hl, us, _, cond, rfl, hcond, h⟩ := one_bind_iff.mp h
    obtain ⟨r, _, rfl, hr, rfl, rfl⟩ := one_bind_iff.mp h
    exact .parens hl hcond hr

theorem IsTerm.of_nameTail {us : List Token} {t : Term} (h : Phrase.bind IsName nameTail us t) :
    IsTerm us t := by
  obtain ⟨us, vs, n, rfl, hn, ⟨rfl, rfl⟩ | h | ⟨ws, _, c, rfl, hc, rfl, rfl⟩⟩ := h
  · simpa using IsTerm.name hn
  · obtain ⟨l, _, rfl, hl, ws, _, index, rfl, hindex, h⟩ := one_bind_iff.mp h
    obtain ⟨r, _, rfl, hr, rfl, rfl⟩ := one_bind_iff.mp h
    exact .element hn hl hindex hr
  · have hcall : IsCall (us ++ ws) c := by
      rw [isCall_eq]
      exact ⟨us, ws, n, rfl, hn, hc⟩
    simpa using IsTerm.call hcall

/-- The kinds of terms, told apart by their first token. -/
theorem IsTerm.cases_first {us : List Token} {e : Term} (h : IsTerm us e) :
    (∃ t value, us = [t] ∧ e = .integer value ∧ t.kind = .number ∧
      constantOfDigits? t.text = some value) ∨
    (∃ t contents, us = [t] ∧ e = .text contents t.span ∧ t.kind = .text ∧
      t.text = "\"" ++ contents ++ "\"") ∨
    (∃ t constant, us = [t] ∧ e = .word constant ∧ t.kind = .keyword constant.keyword) ∨
    (∃ t vs, us = t :: vs ∧ t.kind = .identifier ∧ Phrase.bind IsName nameTail us e) ∨
    (∃ t vs inner, us = t :: vs ∧ e = .paren inner ∧ t.kind = .symbol .leftParen ∧
      IsCondition us inner) := by
  have hidentifier : Phrase.bind IsName nameTail us e →
      ∃ t vs, us = t :: vs ∧ t.kind = .identifier ∧ Phrase.bind IsName nameTail us e := by
    intro h
    obtain ⟨t, vs, rfl, ht⟩ := isName_begins.bind _ _ h
    exact ⟨t, vs, rfl, eq_of_beq ht, h⟩
  cases h with
  | integer hk hdecimal hle =>
      exact .inl ⟨_, _, rfl, rfl, hk, constantOfDigits?_eq_some_iff.mpr ⟨hdecimal, hle⟩⟩
  | text hk htext => exact .inr (.inl ⟨_, _, rfl, rfl, hk, htext⟩)
  | word hk => exact .inr (.inr (.inl ⟨_, _, rfl, rfl, hk⟩))
  | name hn =>
      refine .inr (.inr (.inr (.inl (hidentifier ?_))))
      exact ⟨us, [], _, (List.append_nil _).symm, hn, .inl ⟨rfl, rfl⟩⟩
  | element hn hl hindex hr =>
      refine .inr (.inr (.inr (.inl (hidentifier ?_))))
      refine ⟨_, _, _, rfl, hn, .inr (.inl (one_bind_iff.mpr ⟨_, _, rfl, hl, ?_⟩))⟩
      exact ⟨_, _, _, rfl, hindex, one_bind_iff.mpr ⟨_, [], rfl, hr, rfl, rfl⟩⟩
  | call hc =>
      refine .inr (.inr (.inr (.inl (hidentifier ?_))))
      rw [isCall_eq] at hc
      obtain ⟨vs, ws, n, rfl, hn, hc⟩ := hc
      exact ⟨vs, ws, n, rfl, hn, .inr (.inr ⟨ws, [], _, (List.append_nil _).symm, hc, rfl, rfl⟩)⟩
  | paren hl hinner hr =>
      exact .inr (.inr (.inr (.inr ⟨_, _, _, rfl, rfl, hl, .parens hl hinner hr⟩)))

theorem IsTerm.cases_cons {t : Token} {us : List Token} {e : Term} (h : IsTerm (t :: us) e) :
    t.kind = .number ∧ us = [] ∧
      (∃ value, e = .integer value ∧ constantOfDigits? t.text = some value) ∨
    t.kind = .text ∧ us = [] ∧
      (∃ contents, e = .text contents t.span ∧ t.text = "\"" ++ contents ++ "\"") ∨
    (∃ constant, t.kind = .keyword constant.keyword ∧ us = [] ∧ e = .word constant) ∨
    t.kind = .identifier ∧ Phrase.bind IsName nameTail (t :: us) e ∨
    t.kind = .symbol .leftParen ∧ ∃ inner, e = .paren inner ∧ IsCondition (t :: us) inner := by
  rcases h.cases_first with ⟨t', value, hus, he, hk, hvalue⟩ | ⟨t', contents, hus, he, hk, htext⟩ |
    ⟨t', constant, hus, he, hk⟩ | ⟨t', vs, hus, hk, h⟩ | ⟨t', vs, inner, hus, he, hk, h⟩ <;>
    obtain ⟨rfl, rfl⟩ := List.cons.inj hus
  · exact .inl ⟨hk, rfl, value, he, hvalue⟩
  · exact .inr (.inl ⟨hk, rfl, contents, he, htext⟩)
  · exact .inr (.inr (.inl ⟨constant, hk, rfl, he⟩))
  · exact .inr (.inr (.inr (.inl ⟨hk, h⟩)))
  · exact .inr (.inr (.inr (.inr ⟨hk, inner, he, h⟩)))

/-! ## First tokens, and lists that can be completed -/

theorem isTerm_begins : Begins Kind.beginsTerm IsTerm := by
  intro us e h
  rcases h.cases_first with ⟨t, _, rfl, -, hk, -⟩ | ⟨t, _, rfl, -, hk, -⟩ | ⟨t, c, rfl, -, hk⟩ |
    ⟨t, vs, rfl, hk, -⟩ | ⟨t, vs, _, rfl, -, hk, -⟩
  · exact ⟨t, [], rfl, by rw [hk]; rfl⟩
  · exact ⟨t, [], rfl, by rw [hk]; rfl⟩
  · exact ⟨t, [], rfl, by rw [hk]; cases c <;> rfl⟩
  · exact ⟨t, vs, rfl, by rw [hk]; rfl⟩
  · exact ⟨t, vs, rfl, by rw [hk]; rfl⟩

theorem isUnary_begins : Begins Kind.isUnary IsUnary := by
  rintro _ op ⟨ht⟩
  exact ⟨_, [], rfl, Kind.isUnary_iff.mpr ⟨op, ht⟩⟩

theorem isOperand_begins : Begins Kind.beginsExpr IsOperand := by
  rintro us operand ⟨hunary, ht⟩
  cases hunary with
  | nil =>
      obtain ⟨t, vs, rfl, hk⟩ := isTerm_begins _ _ ht
      exact ⟨t, vs, rfl, by rw [Kind.beginsExpr, hk, Bool.or_true]⟩
  | cons hu _ =>
      obtain ⟨t, vs, rfl, hk⟩ := isUnary_begins _ _ hu
      exact ⟨t, _, rfl, by rw [Kind.beginsExpr, hk, Bool.true_or]⟩

theorem isOperation_begins : Begins Kind.isBinary IsOperation := by
  rintro _ operation ⟨ho, -⟩
  exact ⟨_, _, rfl, Kind.isBinary_iff.mpr ⟨_, ho⟩⟩

theorem isExpr_begins : Begins Kind.beginsExpr IsExpr := by
  rw [isExpr_eq]
  exact isOperand_begins.bind

theorem isTerm_productive : Productive IsTerm := by
  obtain ⟨us, n, hn⟩ := isName_productive
  exact ⟨us, _, .name hn⟩

theorem isOperand_productive : Productive IsOperand := by
  rw [isOperand_eq]
  exact (Productive.repeated _).bind fun unary => isTerm_productive.bind fun t => .empty (unary, t)

theorem isExpr_productive : Productive IsExpr := by
  rw [isExpr_eq]
  exact isOperand_productive.bind fun _ => (Productive.repeated _).bind fun _ => .empty _

theorem parenthesised_begins {P : Phrase α} :
    Begins (· == .symbol .leftParen) (Parenthesised P) := by
  rw [parenthesisedPhrase_eq]
  exact (Begins.one _).bind

theorem parenthesised_productive (P : Phrase α) : Productive (Parenthesised P) := by
  rw [parenthesisedPhrase_eq]
  exact (Productive.one _).bind fun _ => (Productive.orNothing _ []).bind fun as => .last _ as

theorem isCall_productive : Productive IsCall := by
  obtain ⟨us, n, hn⟩ := isName_productive
  obtain ⟨vs, args, hargs⟩ := parenthesised_productive IsExpr
  exact ⟨us ++ vs, _, .plain hn hargs⟩

/-! ## Terms -/

section Terms

variable {expr : Production Expr} {w : Window} {K : Term → Phrase γ}

theorem integer_meets (hw : w.Ready) (hk : w.current.kind = .number)
    (hK : ∀ t, Productive (K t)) : Meets (integer w.current.text) w IsTerm K := by
  have hlead : ∀ us e, IsTerm (w.current :: us) e → us = [] ∧ ∃ value, e = .integer value ∧
      constantOfDigits? w.current.text = some value := by
    intro us e h
    simpa [hk] using h.cases_cons
  rw [integer]
  rcases hvalue : constantOfDigits? w.current.text with _ | value
  · refine .error (.refl _) (.grammar (isTerm_productive.bind hK) ?_)
    rintro ⟨zs, c, vs, ws, e, hzs, h, -⟩
    obtain ⟨t, us, rfl, -⟩ := isTerm_begins vs e h
    obtain ⟨rfl, -⟩ := List.cons.inj hzs
    obtain ⟨-, value, -, hsome⟩ := hlead us e h
    rw [hvalue] at hsome
    cases hsome
  · refine Meets.restrict isTerm_begins ?_ ?_
      (Meets.slide_pure hw (Kind.Passable.of_eq hk) (.integer value) hK)
    · rintro us t ⟨rfl, rfl⟩
      obtain ⟨hdecimal, hle⟩ := constantOfDigits?_eq_some_iff.mp hvalue
      exact .integer hk hdecimal hle
    · intro us t h
      obtain ⟨rfl, value', rfl, hsome⟩ := hlead us t h
      rw [hvalue, Option.some_inj] at hsome
      exact ⟨rfl, hsome ▸ rfl⟩

theorem textConstant_meets (hw : w.Ready) (hk : w.current.kind = .text)
    (hK : ∀ t, Productive (K t)) : Meets (textConstant (w.contents?.getD "")) w IsTerm K := by
  obtain ⟨cs, hcs⟩ := hw.current hk
  have hcontents : w.contents?.getD "" = String.ofList cs := by
    rw [Window.contents?, if_pos hk, hcs]
    simp
  have htext : w.current.text = "\"" ++ String.ofList cs ++ "\"" := by
    rw [← String.toList_inj, hcs]
    simp
  rw [hcontents]
  refine Meets.of_eq ?_ (take_bind_of_kind hk _)
  refine Meets.restrict isTerm_begins ?_ ?_
    (Meets.slide_pure hw (Kind.Passable.of_eq hk) (.text (String.ofList cs) w.current.span) hK)
  · rintro us t ⟨rfl, rfl⟩
    exact .text hk htext
  · intro us e h
    have hcases := h.cases_cons
    simp only [hk, reduceCtorEq, false_and, false_or, exists_false, or_false, true_and] at hcases
    obtain ⟨rfl, contents, rfl, hsame⟩ := hcases
    rw [htext] at hsame
    have hlist := congrArg String.toList hsame
    simp only [String.toList_append, String.toList_ofList] at hlist
    have hcs' : cs = contents.toList := by simpa using hlist
    exact ⟨rfl, by rw [hcs', String.ofList_toList]⟩

theorem word_meets {constant : WordConstant} (hw : w.Ready)
    (hk : w.current.kind = .keyword constant.keyword) (hK : ∀ t, Productive (K t)) :
    Meets (slide >>= fun _ => pure (.word constant)) w IsTerm K := by
  refine Meets.restrict isTerm_begins ?_ ?_
    (Meets.slide_pure hw (Kind.Passable.of_eq hk) (.word constant) hK)
  · rintro us t ⟨rfl, rfl⟩
    exact .word hk
  · intro us e h
    have hcases := h.cases_cons
    simp only [hk, reduceCtorEq, false_and, false_or, or_false, Kind.keyword.injEq] at hcases
    obtain ⟨constant', hsame, rfl, rfl⟩ := hcases
    refine ⟨rfl, congrArg Term.word (Option.some_inj.mp ?_)⟩
    rw [← WordConstant.ofKeyword?_eq_some_iff.mpr hsame,
      WordConstant.ofKeyword?_eq_some_iff.mpr rfl]

theorem parenExpr_reads (h : Reads n expr IsExpr Kind.extendsExpr) (go : Kind → Bool) :
    Reads (n + 1) (parenExpr expr) IsCondition go := by
  rw [isCondition_eq]
  refine .take_bind_succ fun _ => ?_
  exact h.bind_begins (fun e => .last n _ e) (fun _ => (Begins.one _).bind)
    fun k hk => eq_of_beq hk ▸ rfl

theorem parenTerm_meets (h : Reads n expr IsExpr Kind.extendsExpr) (hw : w.Ready)
    (hn : w.remaining < n + 1) (hk : w.current.kind = .symbol .leftParen)
    (hK : Follows Kind.extendsName K) : Meets (.paren <$> parenExpr expr) w IsTerm K := by
  refine Meets.restrict isTerm_begins ?_ ?_ (((parenExpr_reads h _).map .paren).meets hw hn hK)
  · rintro _ _ ⟨us, _, inner, rfl, ⟨hl, hinner, hr⟩, rfl, rfl⟩
    simpa using IsTerm.paren hl hinner hr
  · intro us e he
    have hcases := he.cases_cons
    simp only [hk, reduceCtorEq, false_and, false_or, exists_false, true_and] at hcases
    obtain ⟨inner, rfl, hinner⟩ := hcases
    exact ⟨_, [], inner, (List.append_nil _).symm, hinner, rfl, rfl⟩

/-- Arguments of a call. -/
theorem arguments_reads (h : Reads n expr IsExpr Kind.extendsExpr) (go : Kind → Bool) :
    Reads n (parenthesised expr) (Parenthesised IsExpr) go := by
  refine parenthesised_reads h ?_ rfl rfl go
  exact isExpr_begins.mono fun k hk => by
    rw [bne_iff_ne]
    rintro rfl
    cases hk

theorem callTail_productive (first : Name) : Productive (callTail first) := by
  obtain ⟨us, c, hc⟩ := (parenthesised_productive IsExpr).bind fun args =>
    .empty (Call.mk none first args)
  exact ⟨us, c, .inr hc⟩

/-- What a call reads after its first name. -/
def callRest (expr : Production Expr) (first : Name) : Production Call := do
  let _ ← accept (.symbol .dot)
  if (← get).afterDot then
    let method ← name
    let args ← parenthesised expr
    return .mk (some first) method args
  else
    let args ← parenthesised expr
    return .mk none first args

theorem call_eq (expr : Production Expr) : call expr = name >>= callRest expr := rfl

/-- After the first name a dot tells a receiver from the name of the subroutine. -/
theorem callRest_meets {K : Call → Phrase γ} (h : Reads n expr IsExpr Kind.extendsExpr)
    (first : Name) (hw : w.Ready) (hn : w.remaining < n) (hdot : w.afterDot = false)
    (hK : ∀ c, Productive (K c)) : Meets (callRest expr first) w (callTail first) K := by
  have hfollow : Follows (fun _ => false) K := .of_productive hK
  have hmethod : Reads n (name >>= fun n' => parenthesised expr >>= fun args =>
      pure (Call.mk (some first) n' args)) (Phrase.bind IsName fun n' =>
        Phrase.bind (Parenthesised IsExpr) fun args => empty (Call.mk (some first) n' args))
      fun _ => false :=
    (name_reads n _).bind_any fun n' => (arguments_reads h _).bind_pure _
  by_cases hk : w.current.kind = .symbol .dot
  · refine Meets.of_eq ?_ (accept_bind_of_kind hk _)
    refine Meets.drop parenthesised_begins.bind (by rw [hk]; rfl) (fun us c => .inl)
      (fun us c h => h) (Meets.slide_bind hw hk hmethod.productive hK fun w' hmoves => ?_)
    have hremaining := hmoves.remaining hw
    have hafter : w'.afterDot = true := by
      rw [Window.afterDot, hmoves.previous]
      simp [hk]
    refine Meets.of_eq ?_ (get_if_pos hafter _ _)
    exact hmethod.meets hmoves.ready (by omega) hfollow
  · refine Meets.of_eq ?_ (accept_bind_of_ne hk _)
    have hnot : ¬w.afterDot = true := by simp [hdot]
    refine Meets.of_eq ?_ (get_if_neg hnot _ _)
    refine Meets.drop (Begins.one (.symbol .dot)).bind (beq_eq_false_iff_ne.mpr hk)
      (fun us c => .inr) (fun us c => Or.symm) ?_
    exact ((arguments_reads h _).bind_pure (.mk none first)).meets hw hn hfollow

/-- A name, and then whatever is right after it at the window behind the name. -/
theorem name_bind_meets {q : Name → Production α} {M : Name → Phrase α} {K : α → Phrase γ}
    (hw : w.Ready) (hM : ∀ n, Productive (M n)) (hK : ∀ a, Productive (K a))
    (hq : ∀ n w', w'.Ready → w'.remaining < w.remaining → w'.afterDot = false →
      w'.current = w.lookahead → Meets (q n) w' (M n) K) :
    Meets (name >>= q) w (Phrase.bind IsName M) K := by
  have hfollow : Follows (fun _ => false) fun n => (M n).bind K :=
    .of_productive fun n => (hM n).bind hK
  apply ((name_reads _ _).meets hw (Nat.lt_succ_self _) hfollow).bind
  rintro _ _ w' hmoves ⟨ht⟩
  have hremaining := hmoves.remaining hw
  refine hq _ w' hmoves.ready hremaining ?_ hmoves.passes.current
  rw [Window.afterDot, hmoves.previous]
  simp [ht]

/-- A call. -/
theorem call_reads (h : Reads n expr IsExpr Kind.extendsExpr) (go : Kind → Bool) :
    Reads (n + 1) (call expr) IsCall go := by
  refine ⟨isCall_productive, fun {w γ K} hw hn hK => ?_⟩
  rw [isCall_eq, call_eq]
  apply name_bind_meets hw callTail_productive hK.productive
  intro first w' hw' hlt hdot _
  exact callRest_meets h first hw' (by omega) hdot hK.productive

theorem elementTail_begins (array : Name) :
    Begins (· == .symbol .leftBracket) (elementTail array) :=
  (Begins.one _).bind

theorem callTail_begins (first : Name) :
    Begins (fun k => k == .symbol .dot || k == .symbol .leftParen) (callTail first) := by
  rintro us c (h | h)
  · obtain ⟨t, vs, rfl, hk⟩ := (Begins.one (.symbol .dot)).bind us c h
    exact ⟨t, vs, rfl, by rw [eq_of_beq hk]; rfl⟩
  · obtain ⟨t, vs, rfl, hk⟩ := parenthesised_begins.bind us c h
    exact ⟨t, vs, rfl, by rw [eq_of_beq hk]; rfl⟩

theorem longTail_begins (first : Name) : Begins Kind.extendsName (longTail first) := by
  rintro us t (h | h)
  · obtain ⟨u, vs, rfl, hk⟩ := elementTail_begins first us t h
    exact ⟨u, vs, rfl, by rw [eq_of_beq hk]; rfl⟩
  · obtain ⟨u, vs, rfl, hk⟩ := (callTail_begins first).bind us t h
    refine ⟨u, vs, rfl, ?_⟩
    rcases Bool.or_eq_true_iff.mp hk with hk | hk <;> rw [eq_of_beq hk] <;> rfl

theorem nameTail_productive (n : Name) : Productive (nameTail n) :=
  ⟨[], _, .inl ⟨rfl, rfl⟩⟩

theorem elementRest_reads (h : Reads n expr IsExpr Kind.extendsExpr) (array : Name)
    (go : Kind → Bool) :
    Reads n (take (.symbol .leftBracket) >>= fun _ => expr >>= fun index =>
      take (.symbol .rightBracket) >>= fun _ => pure (.element array index)) (elementTail array)
      go := by
  refine .take_bind fun _ => ?_
  exact h.bind_begins (fun index => .last n _ _) (fun _ => (Begins.one _).bind)
    fun k hk => eq_of_beq hk ▸ rfl

/-- What a term that begins with a name reads after it, by the kind of the next token. -/
def nameRest (expr : Production Expr) : Kind → Name → Production Term
  | .symbol .leftBracket, n => do
      let _ ← take (.symbol .leftBracket)
      let index ← expr
      let _ ← take (.symbol .rightBracket)
      return .element n index
  | .symbol .leftParen, n | .symbol .dot, n => .call <$> callRest expr n
  | _, n => return .variable n

/-- The name is read first whatever the lookahead after it is. -/
theorem named_eq (expr : Production Expr) (w : Window) :
    named expr w = (name >>= nameRest expr w.lookahead.kind) w := by
  have hcall : Term.call <$> call expr = name >>= fun n => .call <$> callRest expr n := by
    simp only [call_eq, map_eq_pure_bind, LawfulMonad.bind_assoc]
  rw [named, get_bind, hcall, map_eq_pure_bind]
  cases w.lookahead.kind with
  | symbol s => cases s <;> rfl
  | _ => rfl

theorem nameRest_of_extendsName {k : Kind} (hk : k.extendsName = false) (expr : Production Expr)
    (first : Name) : nameRest expr k first = pure (.variable first) := by
  cases k with
  | symbol s => cases s <;> first | rfl | cases hk
  | _ => rfl

theorem callTerm_meets {K : Term → Phrase γ} (h : Reads n expr IsExpr Kind.extendsExpr)
    (first : Name) (hw : w.Ready) (hn : w.remaining < n) (hdot : w.afterDot = false)
    (hK : ∀ t, Productive (K t)) :
    Meets (Term.call <$> callRest expr first) w (callTermTail first) K := by
  rw [map_eq_pure_bind]
  have hfollow : ∀ c, Productive ((empty (Term.call c)).bind K) :=
    fun c => (Productive.empty _).bind hK
  exact (callRest_meets h first hw hn hdot hfollow).bind
    fun c _ _ hmoves _ => Meets.pure hmoves.ready (Term.call c)

/-- Behind a name the current token tells which of the three continuations it can be. -/
theorem nameRest_meets {K : Term → Phrase γ} (h : Reads n expr IsExpr Kind.extendsExpr)
    (first : Name) (hw : w.Ready) (hn : w.remaining < n) (hdot : w.afterDot = false)
    (hK : Follows Kind.extendsName K) :
    Meets (nameRest expr w.current.kind first) w (nameTail first) K := by
  have hlong : ∀ {p : Production Term}, w.current.kind.extendsName = true →
      Meets p w (longTail first) K → Meets p w (nameTail first) K := fun hgo =>
    Meets.drop_nil hK hgo (fun _ _ => .inr) fun _ _ ht => ht.symm.imp_right And.left
  have hcall : w.current.kind ≠ .symbol .leftBracket → w.current.kind.extendsName = true →
      Meets (Term.call <$> callRest expr first) w (nameTail first) K := fun hne hgo =>
    hlong hgo (Meets.drop (elementTail_begins first) (beq_eq_false_iff_ne.mpr hne) (fun _ _ => .inr)
      (fun _ _ => Or.symm) (callTerm_meets h first hw hn hdot hK.productive))
  cases hgo : w.current.kind.extendsName with
  | false =>
      rw [nameRest_of_extendsName hgo]
      exact Meets.drop (longTail_begins first) hgo (fun _ _ => .inl) (fun _ _ ht => ht)
        (Meets.pure hw _)
  | true =>
      cases hk : w.current.kind with
      | symbol s =>
          cases s with
          | leftBracket =>
              refine hlong hgo (Meets.drop (callTail_begins first).bind (by rw [hk]; rfl)
                (fun _ _ => .inl) (fun _ _ ht => ht) ?_)
              exact (elementRest_reads h first _).meets hw hn hK
          | leftParen | dot => exact hcall (by rw [hk]; decide) hgo
          | _ => rw [hk] at hgo; cases hgo
      | _ => rw [hk] at hgo; cases hgo

/-- A term that begins with a name. -/
theorem named_meets (h : Reads n expr IsExpr Kind.extendsExpr) (hw : w.Ready)
    (hn : w.remaining < n + 1) (hk : w.current.kind = .identifier)
    (hK : Follows Kind.extendsName K) : Meets (named expr) w IsTerm K := by
  refine Meets.of_eq ?_ (named_eq expr w)
  refine Meets.restrict isTerm_begins (fun us t => IsTerm.of_nameTail) ?_
    (name_bind_meets hw nameTail_productive hK.productive fun first w' hw' hlt hdot hcurrent => ?_)
  · intro us e he
    have hcases := he.cases_cons
    simpa [hk] using hcases
  · rw [← hcurrent]
    exact nameRest_meets h first hw' (by omega) hdot hK

/-- A term. -/
theorem term_reads (h : Reads n expr IsExpr Kind.extendsExpr) :
    Reads (n + 1) (term expr) IsTerm Kind.extendsName := by
  refine ⟨isTerm_productive, fun {w γ K} hw hn hK => ?_⟩
  have hother (what : String) (hk : w.current.kind.beginsTerm = false) :
      Meets (expected what) w IsTerm K :=
    Meets.complain_of_begins isTerm_begins hk isTerm_productive hK.productive
  cases hk : w.current.kind with
  | number => exact Meets.of_eq (integer_meets hw hk hK.productive) (by rw [term, get_bind, hk])
  | text => exact Meets.of_eq (textConstant_meets hw hk hK.productive) (by rw [term, get_bind, hk])
  | identifier => exact Meets.of_eq (named_meets h hw hn hk hK) (by rw [term, get_bind, hk])
  | finish => exact Meets.of_eq (hother _ (by rw [hk]; rfl)) (by rw [term, get_bind, hk])
  | symbol s =>
      by_cases hs : s = .leftParen
      · subst hs
        exact Meets.of_eq (parenTerm_meets h hw hn hk hK) (by rw [term, get_bind, hk])
      · have hnot : w.current.kind.beginsTerm = false := by
          rw [hk]
          cases s <;> first | rfl | exact absurd rfl hs
        apply Meets.of_eq (hother "term" hnot)
        rw [term, get_bind, hk]
        cases s <;> first | rfl | exact absurd rfl hs
  | keyword k =>
      cases hc : WordConstant.ofKeyword? k with
      | none =>
          have hnot : w.current.kind.beginsTerm = false := by rw [hk, Kind.beginsTerm, hc]; rfl
          apply Meets.of_eq (hother "term" hnot)
          rw [term, get_bind, hk]
          simp only [hc]
      | some constant =>
          obtain rfl := WordConstant.ofKeyword?_eq_some_iff.mp hc
          apply Meets.of_eq (word_meets hw hk hK.productive)
          rw [term, get_bind, hk]
          simp only [hc]

end Terms

/-! ## Rows of operands -/

section Rows

variable {expr : Production Expr}

theorem Window.unary?_eq_some_iff (w : Window) (op : UnaryOp) :
    w.unary? = some op ↔ w.current.kind = .symbol op.symbol := by
  rw [← Kind.unary?_eq_some_iff, unary?]
  cases w.current.kind <;> rfl

theorem Window.binary?_eq_some_iff (w : Window) (op : BinaryOp) :
    w.binary? = some op ↔ w.current.kind = .symbol op.symbol := by
  rw [← Kind.binary?_eq_some_iff, binary?]
  cases w.current.kind <;> rfl

theorem Window.unary?_isSome (w : Window) : w.unary?.isSome = w.current.kind.isUnary := by
  rw [unary?, Kind.isUnary]
  cases w.current.kind <;> rfl

theorem Window.binary?_isSome (w : Window) : w.binary?.isSome = w.current.kind.isBinary := by
  rw [binary?, Kind.isBinary]
  cases w.current.kind <;> rfl

theorem isUnary_eq : IsUnary = announcedPhrase (fun op => .symbol op.symbol) empty := by
  ext us op
  constructor
  · rintro ⟨ht⟩
    exact announcedPhrase_iff.mpr ⟨op, _, [], rfl, ht, rfl, rfl⟩
  · intro h
    obtain ⟨op', t, _, rfl, ht, rfl, rfl⟩ := announcedPhrase_iff.mp h
    exact .token ht

theorem isOperation_eq : IsOperation = announcedPhrase (fun op => .symbol op.symbol) fun op =>
    Phrase.bind IsOperand fun right => empty (op, right) := by
  ext us operation
  constructor
  · rintro ⟨ho, hright⟩
    exact announcedPhrase_iff.mpr ⟨_, _, _, rfl, ho, bind_empty_iff.mpr ⟨_, hright, rfl⟩⟩
  · intro h
    obtain ⟨op, o, us, rfl, ho, h⟩ := announcedPhrase_iff.mp h
    obtain ⟨right, hright, rfl⟩ := bind_empty_iff.mp h
    exact .binary ho hright

theorem unaryOp_eq : unaryOp = announced Window.unary? "term" pure := by
  funext w
  rw [unaryOp, announced, get_bind, get_bind]
  cases w.unary? <;> rfl

theorem operation_eq (expr : Production Expr) :
    operation expr = announced Window.binary? "binary operator" fun op => do
      let right ← operand expr
      return (op, right) := by
  funext w
  rw [operation, announced, get_bind, get_bind]
  cases w.binary? <;> rfl

theorem unaryOp_reads (n : Nat) (go : Kind → Bool) : Reads n unaryOp IsUnary go := by
  rw [isUnary_eq, unaryOp_eq]
  exact announced_reads Window.unary?_eq_some_iff .neg "term"
    fun op => .pure n op go

/-- An operand. -/
theorem operand_reads (h : Reads n expr IsExpr Kind.extendsExpr) :
    Reads (n + 1) (operand expr) IsOperand Kind.extendsName := by
  have hunary : Reads (n + 1) (repeatWhile (fun w => w.unary?.isSome) unaryOp) (Repeated IsUnary)
      fun k => k.isUnary || false :=
    repeatWhile_reads isUnary_begins (fun _ _ => rfl) Window.unary?_isSome
      fun hw hn _ hK => (unaryOp_reads _ _).meets hw hn hK
  rw [isOperand_eq]
  refine hunary.bind_begins (fun unary => (term_reads h).bind_pure (unary, ·))
    (fun unary => isTerm_begins.bind) fun k hk => ?_
  rw [Kind.isUnary_of_beginsTerm hk]
  rfl

theorem operation_reads (h : Reads n expr IsExpr Kind.extendsExpr) :
    Reads (n + 1) (operation expr) IsOperation Kind.extendsName := by
  rw [isOperation_eq, operation_eq]
  exact announced_reads Window.binary?_eq_some_iff .add "binary operator"
    fun op => (operand_reads h).bind_pure (op, ·)

/-- A row of operands. -/
theorem row_reads (h : Reads n expr IsExpr Kind.extendsExpr) :
    Reads (n + 1) (row expr) IsExpr Kind.extendsExpr := by
  have hrest : Reads (n + 1) (repeatWhile (fun w => w.binary?.isSome) (operation expr))
      (Repeated IsOperation) Kind.extendsExpr :=
    repeatWhile_reads isOperation_begins (fun _ => Kind.extendsName_of_isBinary)
      Window.binary?_isSome fun hw hn _ hK => (operation_reads h).meets hw hn hK
  rw [isExpr_eq]
  refine (operand_reads h).bind (fun first => hrest.bind_pure _) fun hK => ?_
  simp only [Phrase.bind_assoc, empty_bind]
  exact Follows.repeated isOperation_begins (fun _ => Kind.extendsName_of_isBinary)
    fun first => hK.comp _

/-- Expressions of a bounded depth are read from windows with fewer tokens than the bound. -/
theorem exprWithin_reads (n : Nat) : Reads n (exprWithin n) IsExpr Kind.extendsExpr := by
  induction n with
  | zero => exact ⟨isExpr_productive, fun _ hn => absurd hn (Nat.not_lt_zero _)⟩
  | succ n ih => exact row_reads ih

end Rows

/-- An expression. -/
theorem expr_reads (n : Nat) : Reads n expr IsExpr Kind.extendsExpr := by
  refine ⟨isExpr_productive, fun {w γ K} hw _ hK => ?_⟩
  have hwithin := (exprWithin_reads (w.remaining + 1)).meets hw (Nat.lt_succ_self _) hK
  apply hwithin.of_eq
  rw [expr, get_bind]

end JackCompiler
