import JackCompiler.Proofs.Mentions.Trees
import JackCompiler.Proofs.Syntax.Grammar
import Mathlib.Data.List.Forall2

/-!
# Mentions and the tokens that write them

Each name and each constant of a tree is written by a token of its own, and the tokens stand in the
order of the mentions.
-/

namespace JackCompiler

/-- A token writes a mention. -/
inductive Mention.WrittenBy : Mention → Token → Prop
  | name {role : Role} {t : Token} : t.kind = .identifier → WrittenBy (.name role t.toName) t
  | number {t : Token} {value : UInt16} :
      t.kind = .number → decimalValue t.text = value.toNat → value.toNat ≤ maxConstant →
      WrittenBy (.number value) t
  | text {t : Token} {contents : String} :
      t.kind = .text → t.text = "\"" ++ contents ++ "\"" → WrittenBy (.text contents t.span) t

theorem Mention.WrittenBy.span_eq {m : Mention} {t : Token} (h : m.WrittenBy t) {span : Span}
    (hspan : m.span? = some span) : t.span = span ∧ t.kind ≠ .finish := by
  cases h with
  | name hk | text hk _ =>
      cases hspan
      exact ⟨rfl, by simp [hk]⟩
  | number => cases hspan

/-- Mentions are written by some of the given tokens, in order. -/
def WrittenIn (us : List Token) (ms : List Mention) : Prop :=
  List.SublistForall₂ Mention.WrittenBy ms us

namespace WrittenIn

variable {us vs : List Token} {ms ns : List Mention}

theorem nil (us : List Token) : WrittenIn us [] :=
  List.SublistForall₂.nil

theorem skip (t : Token) (h : WrittenIn us ms) : WrittenIn (t :: us) ms :=
  List.SublistForall₂.cons_right h

theorem append (h : WrittenIn us ms) (h' : WrittenIn vs ns) : WrittenIn (us ++ vs) (ms ++ ns) := by
  induction h with
  | @nil us =>
      induction us with
      | nil => exact h'
      | cons t us ih => exact ih.skip t
  | cons ht _ ih => exact List.SublistForall₂.cons ht ih
  | cons_right _ ih => exact ih.skip _

theorem left (h : WrittenIn us ms) (vs : List Token) : WrittenIn (us ++ vs) ms := by
  have happend := h.append (nil vs)
  rwa [List.append_nil] at happend

theorem right (us : List Token) (h : WrittenIn vs ms) : WrittenIn (us ++ vs) ms :=
  (nil us).append h

theorem sublist (h : WrittenIn us ms) (hsub : ns.Sublist ms) : WrittenIn us ns := by
  induction h generalizing ns with
  | nil =>
      obtain rfl := List.sublist_nil.mp hsub
      exact .nil _
  | cons ht _ ih =>
      cases hsub with
      | cons _ hsub => exact (ih hsub).skip _
      | cons_cons _ hsub => exact List.SublistForall₂.cons ht (ih hsub)
  | cons_right _ ih => exact (ih hsub).skip _

theorem exists_token (h : WrittenIn us ms) {m : Mention} (hm : m ∈ ms) :
    ∃ t ∈ us, m.WrittenBy t := by
  induction h with
  | nil => cases hm
  | cons ht _ ih =>
      rcases List.mem_cons.mp hm with rfl | hm
      · exact ⟨_, List.mem_cons_self, ht⟩
      · obtain ⟨t, ht, hwrites⟩ := ih hm
        exact ⟨t, List.mem_cons_of_mem _ ht, hwrites⟩
  | cons_right _ ih =>
      obtain ⟨t, ht, hwrites⟩ := ih hm
      exact ⟨t, List.mem_cons_of_mem _ ht, hwrites⟩

/-- Mentions have the spans of the tokens that write them. -/
theorem spans (h : WrittenIn us ms) :
    (ms.filterMap Mention.span?).Sublist (us.map Token.span) := by
  induction h with
  | nil => exact List.nil_sublist _
  | cons ht _ ih =>
      cases ht with
      | name | text => exact ih.cons_cons _
      | number => exact ih.cons _
  | cons_right _ ih => exact ih.cons _

end WrittenIn

theorem IsName.writtenIn {us : List Token} {n : Name} (h : IsName us n) (role : Role) :
    WrittenIn us [.name role n] := by
  cases h with
  | token hk => exact .cons (.name hk) .nil

/-! ## Expressions -/

/-- The mentions of a row are those of its terms. -/
theorem Expr.mentions_ofRow (unary : List UnaryOp) (t : Term)
    (rest : List (BinaryOp × List UnaryOp × Term)) :
    (Expr.ofRow unary t rest).mentions = t.mentions ++ rest.flatMap (·.2.2.mentions) := by
  induction rest generalizing unary t with
  | nil => rw [Expr.ofRow, Expr.mentions, List.flatMap_nil, List.append_nil]
  | cons operation rest ih =>
      obtain ⟨op, unary', t'⟩ := operation
      rw [Expr.ofRow, Expr.mentions, ih, List.flatMap_cons]

mutual

/-- The mentions of an expression are written by its tokens, in order. -/
theorem IsExpr.writtenIn : {us : List Token} → {e : Expr} → IsExpr us e → WrittenIn us e.mentions
  | _, _, .row h hrest => by
      rw [Expr.mentions_ofRow]
      exact h.writtenIn.append (operations_writtenIn hrest)

theorem operations_writtenIn : {us : List Token} →
    {os : List (BinaryOp × List UnaryOp × Term)} → Repeated IsOperation us os →
    WrittenIn us (os.flatMap (·.2.2.mentions))
  | _, _, .nil => .nil _
  | _, _, .cons h hrest => h.writtenIn.append (operations_writtenIn hrest)

theorem IsOperation.writtenIn : {us : List Token} → {o : BinaryOp × List UnaryOp × Term} →
    IsOperation us o → WrittenIn us o.2.2.mentions
  | _, _, .binary _ h => h.writtenIn.skip _

theorem IsOperand.writtenIn : {us : List Token} → {o : List UnaryOp × Term} → IsOperand us o →
    WrittenIn us o.2.mentions
  | _, _, .term _ h => h.writtenIn.right _

theorem IsTerm.writtenIn : {us : List Token} → {t : Term} → IsTerm us t → WrittenIn us t.mentions
  | _, _, .integer hk hvalue hle => .cons (.number hk hvalue hle) .nil
  | _, _, .text hk htext => .cons (.text hk htext) .nil
  | _, _, .word _ => .nil _
  | _, _, .name h => h.writtenIn _
  | _, _, .element h _ hindex _ => (h.writtenIn _).append ((hindex.writtenIn.left _).skip _)
  | _, _, .call h => h.writtenIn
  | _, _, .paren _ h _ => (h.writtenIn.left _).skip _

theorem IsCall.writtenIn : {us : List Token} → {c : Call} → IsCall us c → WrittenIn us c.mentions
  | _, _, .plain h hargs => (h.writtenIn _).append (args_writtenIn hargs)
  | _, _, .qualified hr _ h hargs =>
      (hr.writtenIn _).append (((h.writtenIn _).append (args_writtenIn hargs)).skip _)

theorem args_writtenIn : {us : List Token} → {es : List Expr} → Parenthesised IsExpr us es →
    WrittenIn us (argsMentions es)
  | _, _, .none _ _ => .nil _
  | _, _, .some _ h _ => ((separatedArgs_writtenIn h).left _).skip _

theorem separatedArgs_writtenIn : {us : List Token} → {es : List Expr} → Separated IsExpr us es →
    WrittenIn us (argsMentions es)
  | _, _, .one h => by
      rw [argsMentions, argsMentions, List.append_nil]
      exact h.writtenIn
  | _, _, .cons h _ hrest => h.writtenIn.append ((separatedArgs_writtenIn hrest).skip _)

end

/-! ## Statements -/

theorem IsCondition.writtenIn {us : List Token} {cond : Expr} (h : IsCondition us cond) :
    WrittenIn us cond.mentions := by
  cases h with
  | parens _ h _ => exact (h.writtenIn.left _).skip _

mutual

/-- The mentions of a statement are written by its tokens, in order. -/
theorem IsStmt.writtenIn : {us : List Token} → {s : Stmt} → IsStmt us s → WrittenIn us s.mentions
  | _, _, .assign _ h _ hvalue _ =>
      ((h.writtenIn _).append ((hvalue.writtenIn.left _).skip _)).skip _
  | _, _, .assignElement _ h _ hindex _ _ hvalue _ =>
      ((h.writtenIn _).append
        ((hindex.writtenIn.append (((hvalue.writtenIn.left _).skip _).skip _)).skip _)).skip _
  | _, _, .branch _ hcond hyes => (hcond.writtenIn.append (braced_writtenIn hyes)).skip _
  | _, _, .branchElse _ hcond hyes _ hno =>
      (hcond.writtenIn.append
        ((braced_writtenIn hyes).append ((braced_writtenIn hno).skip _))).skip _
  | _, _, .loop _ hcond hbody => (hcond.writtenIn.append (braced_writtenIn hbody)).skip _
  | _, _, .call _ h _ => (h.writtenIn.left _).skip _
  | _, _, .ret _ _ => .nil _
  | _, _, .retValue _ h _ => (h.writtenIn.left _).skip _

theorem braced_writtenIn : {us : List Token} → {ss : List Stmt} → Braced IsStmt us ss →
    WrittenIn us (blockMentions ss)
  | _, _, .braces _ h _ => ((stmts_writtenIn h).left _).skip _

theorem stmts_writtenIn : {us : List Token} → {ss : List Stmt} → Repeated IsStmt us ss →
    WrittenIn us (blockMentions ss)
  | _, _, .nil => .nil _
  | _, _, .cons h hrest => h.writtenIn.append (stmts_writtenIn hrest)

end

/-! ## Declarations -/

section Lists

variable {α : Type} {P : List Token → α → Prop} {f : α → List Mention} {us : List Token}
  {as : List α}

theorem Repeated.writtenIn (h : Repeated P us as)
    (hf : ∀ {us : List Token} {a : α}, P us a → WrittenIn us (f a)) :
    WrittenIn us (as.flatMap f) := by
  induction h with
  | nil => exact .nil _
  | cons h _ ih => exact (hf h).append ih

theorem Separated.writtenIn (h : Separated P us as)
    (hf : ∀ {us : List Token} {a : α}, P us a → WrittenIn us (f a)) :
    WrittenIn us (as.flatMap f) := by
  induction h with
  | one h =>
      rw [List.flatMap_singleton]
      exact hf h
  | cons h _ _ ih => exact (hf h).append (ih.skip _)

theorem Parenthesised.writtenIn (h : Parenthesised P us as)
    (hf : ∀ {us : List Token} {a : α}, P us a → WrittenIn us (f a)) :
    WrittenIn us (as.flatMap f) := by
  cases h with
  | none => exact .nil _
  | some _ h _ => exact ((h.writtenIn hf).left _).skip _

end Lists

theorem names_writtenIn {us : List Token} {names : List Name} (h : Separated IsName us names) :
    WrittenIn us (declaredMentions names) := by
  rw [declaredMentions, List.map_eq_flatMap]
  exact h.writtenIn fun hn => hn.writtenIn .declared

theorem IsSubroutine.writtenIn {us : List Token} {s : Subroutine} (h : IsSubroutine us s) :
    WrittenIn us s.mentions := by
  cases h with
  | @declared us vs ws xs k kind returns n ps b _ _ hn hps hbody =>
      have hparameters : WrittenIn ws (declaredMentions (ps.map Parameter.name)) := by
        rw [declaredMentions, List.map_map, List.map_eq_flatMap]
        exact hps.writtenIn fun hp => by
          cases hp with
          | typed _ hn => exact (hn.writtenIn .declared).right _
      have hlocals : ∀ {us locals}, Repeated IsLocalVariables us locals →
          WrittenIn us (declaredMentions (locals.flatMap LocalVariables.names)) := by
        intro us locals hlocals
        rw [declaredMentions, List.map_flatMap]
        exact hlocals.writtenIn fun hline => by
          cases hline with
          | line _ _ hnames _ => exact ((names_writtenIn hnames).left _).right _ |>.skip _
      cases hbody with
      | braces _ hl hstmts _ =>
          rw [Subroutine.mentions, Subroutine.declarations_map_name, declaredMentions,
            List.map_append, List.append_assoc]
          refine .skip _ (.right _ ((hn.writtenIn .declared).append (hparameters.append ?_)))
          exact ((hlocals hl).append ((stmts_writtenIn hstmts).left _)).skip _

theorem IsMember.writtenIn {us : List Token} {m : Member} (h : IsMember us m) :
    WrittenIn us m.mentions := by
  cases h with
  | vars h =>
      cases h with
      | line _ _ hnames _ => exact (((names_writtenIn hnames).left _).right _).skip _
  | subroutine h => exact h.writtenIn

/-- The mentions of a class are written by its tokens, member by member. -/
theorem IsClass.writtenIn {us : List Token} {n : Name} {members : List Member}
    (h : IsClass us (n, members)) :
    WrittenIn us (.name .declared n :: members.flatMap Member.mentions) := by
  cases h with
  | declared _ hn hbraced =>
      cases hbraced with
      | braces _ h _ =>
          have hmembers := h.writtenIn IsMember.writtenIn
          exact ((hn.writtenIn _).append ((hmembers.left _).skip _)).skip _

/-! ## Trees -/

section Pieces

variable {α : Type} {P : List Token → α → Prop} {us : List Token} {as : List α} {a : α}

/-- Each item of a list is derived from some of the tokens of the list. -/
theorem Repeated.exists_piece (h : Repeated P us as) (ha : a ∈ as) :
    ∃ vs, (∀ t ∈ vs, t ∈ us) ∧ P vs a := by
  induction h with
  | nil => cases ha
  | cons h _ ih =>
      rcases List.mem_cons.mp ha with rfl | ha
      · exact ⟨_, fun t ht => List.mem_append_left _ ht, h⟩
      · obtain ⟨vs, hvs, hv⟩ := ih ha
        exact ⟨vs, fun t ht => List.mem_append_right _ (hvs t ht), hv⟩

theorem Separated.exists_piece (h : Separated P us as) (ha : a ∈ as) :
    ∃ vs, (∀ t ∈ vs, t ∈ us) ∧ P vs a := by
  induction h with
  | one h =>
      obtain rfl := List.mem_singleton.mp ha
      exact ⟨_, fun t ht => ht, h⟩
  | cons h _ _ ih =>
      rcases List.mem_cons.mp ha with rfl | ha
      · exact ⟨_, fun t ht => List.mem_append_left _ ht, h⟩
      · obtain ⟨vs, hvs, hv⟩ := ih ha
        exact ⟨vs, fun t ht => List.mem_append_right _ (List.mem_cons_of_mem _ (hvs t ht)), hv⟩

theorem Parenthesised.exists_piece (h : Parenthesised P us as) (ha : a ∈ as) :
    ∃ vs, (∀ t ∈ vs, t ∈ us) ∧ P vs a := by
  cases h with
  | none => cases ha
  | some _ h _ =>
      obtain ⟨vs, hvs, hv⟩ := h.exists_piece ha
      exact ⟨vs, fun t ht => List.mem_cons_of_mem _ (List.mem_append_left _ (hvs t ht)), hv⟩

end Pieces

/-- The name of a class that a type may have is written by one of the given tokens. -/
def VarType.WrittenIn (us : List Token) (type : VarType) : Prop :=
  ∀ x, type = .object x → ∃ t ∈ us, t.kind = .identifier ∧ t.text = x

theorem VarType.WrittenIn.mono {us vs : List Token} {type : VarType} (h : type.WrittenIn us)
    (hsub : ∀ t ∈ us, t ∈ vs) : type.WrittenIn vs := by
  intro x hx
  obtain ⟨t, ht, hk⟩ := h x hx
  exact ⟨t, hsub t ht, hk⟩

theorem IsType.writtenIn {us : List Token} {type : VarType} (h : IsType us type) :
    type.WrittenIn us := by
  intro x hx
  cases h with
  | int | char | boolean => cases hx
  | @object t hk =>
      cases hx
      exact ⟨t, List.mem_singleton_self t, hk, rfl⟩

theorem IsClassVariables.type_writtenIn {us : List Token} {v : ClassVariables}
    (h : IsClassVariables us v) : v.type.WrittenIn us := by
  cases h with
  | line _ htype _ _ => exact htype.writtenIn.mono fun t ht => by simp [ht]

theorem IsParameter.type_writtenIn {us : List Token} {p : Parameter} (h : IsParameter us p) :
    p.type.WrittenIn us := by
  cases h with
  | typed htype _ => exact htype.writtenIn.mono fun t ht => by simp [ht]

theorem IsLocalVariables.type_writtenIn {us : List Token} {v : LocalVariables}
    (h : IsLocalVariables us v) : v.type.WrittenIn us := by
  cases h with
  | line _ htype _ _ => exact htype.writtenIn.mono fun t ht => by simp [ht]

theorem IsSubroutine.type_writtenIn {us : List Token} {s : Subroutine} (h : IsSubroutine us s) :
    ∀ d ∈ s.declarations, d.type.WrittenIn us := by
  intro d hd
  cases h with
  | declared _ _ _ hps hbody =>
      rcases List.mem_append.mp hd with hd | hd
      · obtain ⟨p, hp, rfl⟩ := List.mem_map.mp hd
        obtain ⟨ys, hys, hparameter⟩ := hps.exists_piece hp
        exact hparameter.type_writtenIn.mono fun t ht => by simp [hys t ht]
      · obtain ⟨line, hline, hd⟩ := List.mem_flatMap.mp hd
        obtain ⟨_, -, rfl⟩ := List.mem_map.mp hd
        cases hbody with
        | braces _ hlocals _ _ =>
            obtain ⟨ys, hys, hvariables⟩ := hlocals.exists_piece hline
            exact hvariables.type_writtenIn.mono fun t ht => by simp [hys t ht]

/-- What the code of a tree takes from the texts of a source is written by the given tokens. -/
structure ClassTree.WrittenIn (us : List Token) (c : ClassTree) : Prop where
  names : ∀ n ∈ c.name :: c.declarations.map Declaration.name,
    ∃ t ∈ us, Mention.WrittenBy (.name .declared n) t
  mentions : ∀ s ∈ c.subroutines, JackCompiler.WrittenIn us s.mentions
  types : ∀ d ∈ c.declarations, d.type.WrittenIn us
  localTypes : ∀ s ∈ c.subroutines, ∀ d ∈ s.declarations, d.type.WrittenIn us

namespace ClassTree

variable {n : Name} {members : List Member}

theorem mem_vars_ofMembers {v : ClassVariables} : v ∈ (ofMembers n members).vars ↔
    .vars v ∈ members := by
  rw [ofMembers, List.mem_filterMap]
  constructor
  · rintro ⟨_ | _, hm, ⟨⟩⟩
    exact hm
  · exact fun hm => ⟨_, hm, rfl⟩

theorem mem_subroutines_ofMembers {s : Subroutine} : s ∈ (ofMembers n members).subroutines ↔
    .subroutine s ∈ members := by
  rw [ofMembers, List.mem_filterMap]
  constructor
  · rintro ⟨_ | _, hm, ⟨⟩⟩
    exact hm
  · exact fun hm => ⟨_, hm, rfl⟩

end ClassTree

theorem IsClass.tree_writtenIn {us : List Token} {n : Name} {members : List Member}
    (h : IsClass us (n, members)) : (ClassTree.ofMembers n members).WrittenIn us := by
  have hmentions := h.writtenIn
  have hmember : ∀ m ∈ members, ∃ vs, (∀ t ∈ vs, t ∈ us) ∧ IsMember vs m := by
    intro m hm
    cases h with
    | declared _ _ hbraced =>
        cases hbraced with
        | braces _ h _ =>
            obtain ⟨vs, hvs, hpiece⟩ := h.exists_piece hm
            exact ⟨vs, fun t ht => by simp [hvs t ht], hpiece⟩
  refine ⟨?_, ?_, ?_, ?_⟩
  · intro n' hn'
    apply hmentions.exists_token
    rcases List.mem_cons.mp hn' with rfl | hn'
    · exact List.mem_cons_self
    · apply List.mem_cons_of_mem
      obtain ⟨d, hd, rfl⟩ := List.mem_map.mp hn'
      obtain ⟨v, hv, hd⟩ := List.mem_flatMap.mp hd
      obtain ⟨n', hmem, rfl⟩ := List.mem_map.mp hd
      exact List.mem_flatMap.mpr ⟨_, ClassTree.mem_vars_ofMembers.mp hv, List.mem_map_of_mem hmem⟩
  · intro s hs
    apply hmentions.sublist
    apply List.Sublist.cons
    have hmem := ClassTree.mem_subroutines_ofMembers.mp hs
    exact List.sublist_flatten_of_mem (List.mem_map_of_mem hmem)
  · intro d hd
    obtain ⟨v, hv, hd⟩ := List.mem_flatMap.mp hd
    obtain ⟨_, -, rfl⟩ := List.mem_map.mp hd
    obtain ⟨vs, hvs, hpiece⟩ := hmember _ (ClassTree.mem_vars_ofMembers.mp hv)
    cases hpiece with
    | vars h => exact h.type_writtenIn.mono hvs
  · intro s hs d hd
    obtain ⟨vs, hvs, hpiece⟩ := hmember _ (ClassTree.mem_subroutines_ofMembers.mp hs)
    cases hpiece with
    | subroutine h => exact (h.type_writtenIn d hd).mono hvs

end JackCompiler
