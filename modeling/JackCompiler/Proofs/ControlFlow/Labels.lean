import JackCompiler.Proofs.Output.Functions
import JackCompiler.Proofs.Output.Induction

/-!
# Labels of a subroutine

Under unique numbering a statement puts labels into the listing whose numbers lie between the
counters before and after it, each label once. A subroutine starts with both counters at zero, so no
label occurs twice in it. The texts of numbered labels are as distinct as the labels, since a stem
ends in a letter and the number after it is made of digits.

Under either numbering a jump leads to a label of the statement that it belongs to.
-/

namespace JackCompiler

/-! ## Texts of labels -/

theorem LabelStem.text_injective {a b : LabelStem} (h : a.text = b.text) : a = b := by
  cases a <;> cases b <;> first | rfl | exact absurd h (by decide)

/-- The last character of a stem is not a digit. -/
theorem LabelStem.takeWhile_isDigit_reverse (s : LabelStem) :
    s.text.toList.reverse.takeWhile Char.isDigit = [] := by
  cases s <;> decide

/-- Different numbered labels have different texts. -/
theorem Label.text_numbered_injective {a b : LabelStem} {m n : Nat}
    (h : (Label.numbered a m).text = (Label.numbered b n).text) : a = b ∧ m = n := by
  have hlists : a.text.toList ++ Nat.toDigits 10 m = b.text.toList ++ Nat.toDigits 10 n := by
    simpa [Label.text] using congrArg String.toList h
  -- The digits at the end of either side are exactly those of its number.
  have hdigits : ∀ (s : LabelStem) (k : Nat),
      (s.text.toList ++ Nat.toDigits 10 k).reverse.takeWhile Char.isDigit =
        (Nat.toDigits 10 k).reverse := by
    intro s k
    have hall : ∀ c ∈ (Nat.toDigits 10 k).reverse, c.isDigit = true := by
      intro c hc
      exact Nat.isDigit_of_mem_toDigits (by decide) (by decide) (List.mem_reverse.mp hc)
    rw [List.reverse_append, List.takeWhile_append_of_pos hall, s.takeWhile_isDigit_reverse,
      List.append_nil]
  have hnum : Nat.toDigits 10 m = Nat.toDigits 10 n := by
    rw [← List.reverse_inj, ← hdigits a m, ← hdigits b n, hlists]
  have hstem : a.text.toList = b.text.toList := by
    rw [hnum] at hlists
    exact List.append_cancel_right hlists
  refine ⟨LabelStem.text_injective (String.toList_inj.mp hstem), ?_⟩
  rw [← Nat.ofDigitChars_ten_toDigits (n := m), hnum, Nat.ofDigitChars_ten_toDigits]

/-! ## Labels and jumps of a listing -/

/-- The label that an instruction can lead to. -/
def Instruction.jump? : Instruction → Option Label
  | goto l | ifGoto l => some l
  | _ => none

/-- The labels of a listing in order. -/
def labels (code : List Instruction) : List Label :=
  code.filterMap Instruction.label?

/-- The labels that the jumps of a listing lead to, in order. -/
def jumps (code : List Instruction) : List Label :=
  code.filterMap Instruction.jump?

theorem labels_nil : labels [] = [] := rfl

theorem jumps_nil : jumps [] = [] := rfl

theorem labels_append (xs ys : List Instruction) : labels (xs ++ ys) = labels xs ++ labels ys :=
  List.filterMap_append

theorem jumps_append (xs ys : List Instruction) : jumps (xs ++ ys) = jumps xs ++ jumps ys :=
  List.filterMap_append

theorem labels_cons (i : Instruction) (is : List Instruction) :
    labels (i :: is) = i.label?.toList ++ labels is := by
  rw [labels, List.filterMap_cons]
  cases i.label? <;> rfl

theorem jumps_cons (i : Instruction) (is : List Instruction) :
    jumps (i :: is) = i.jump?.toList ++ jumps is := by
  rw [jumps, List.filterMap_cons]
  cases i.jump? <;> rfl

theorem labels_straight {t : Code} (h : t.IsStraight) : labels t.items = [] :=
  List.filterMap_eq_nil_iff.mpr fun i hi => Instruction.label?_of_isStraight (h i hi)

theorem Instruction.jump?_of_isStraight {i : Instruction} (h : i.isStraight = true) :
    i.jump? = none := by
  cases i with
  | goto | ifGoto => cases h
  | _ => rfl

theorem jumps_straight {t : Code} (h : t.IsStraight) : jumps t.items = [] :=
  List.filterMap_eq_nil_iff.mpr fun i hi => Instruction.jump?_of_isStraight (h i hi)

section Lines

variable (cond : Expr) (order : OperatorOrder) (f : Frame) (n : Nat) (ys zs : List Instruction)

theorem labels_branchLines : labels (branchLines n (cond.code order f).items ys) =
    .numbered .ifTrue n :: (labels ys ++ [.numbered .ifFalse n]) := by
  simp [branchLines, labels_append, labels_cons, labels_nil, Instruction.label?,
    labels_straight (cond.code_isStraight order f)]

theorem jumps_branchLines : jumps (branchLines n (cond.code order f).items ys) =
    .numbered .ifTrue n :: .numbered .ifFalse n :: jumps ys := by
  simp [branchLines, jumps_append, jumps_cons, jumps_nil, Instruction.jump?,
    jumps_straight (cond.code_isStraight order f)]

theorem labels_branchElseLines : labels (branchElseLines n (cond.code order f).items ys zs) =
    .numbered .ifTrue n :: (labels ys ++
      .numbered .ifFalse n :: (labels zs ++ [.numbered .ifEnd n])) := by
  simp [branchElseLines, labels_append, labels_cons, labels_nil, Instruction.label?,
    labels_straight (cond.code_isStraight order f)]

theorem jumps_branchElseLines : jumps (branchElseLines n (cond.code order f).items ys zs) =
    .numbered .ifTrue n :: .numbered .ifFalse n :: (jumps ys ++ .numbered .ifEnd n :: jumps zs) := by
  simp [branchElseLines, jumps_append, jumps_cons, jumps_nil, Instruction.jump?,
    jumps_straight (cond.code_isStraight order f)]

theorem labels_loopLines : labels (loopLines n (cond.code order f).items ys) =
    .numbered .whileStart n :: (labels ys ++ [.numbered .whileEnd n]) := by
  simp [loopLines, labels_append, labels_cons, labels_nil, Instruction.label?,
    labels_straight (cond.code_isStraight order f)]

theorem jumps_loopLines : jumps (loopLines n (cond.code order f).items ys) =
    .numbered .whileEnd n :: (jumps ys ++ [.numbered .whileStart n]) := by
  simp [loopLines, jumps_append, jumps_cons, jumps_nil, Instruction.jump?,
    jumps_straight (cond.code_isStraight order f)]

end Lines

/-- A statement without statements inside is compiled to straight-line code and returns. -/
theorem Stmt.plain_instructions {o : Options} {f : Frame} {s : Stmt} (hs : s.numbered? = none)
    {c c' : Counters} {code : List Instruction} (h : (s.emit o f).Emits c code c') :
    ∀ i ∈ code, i.isStraight = true ∨ i = .ret := by
  cases s with
  | assign target index value =>
      obtain ⟨-, rfl, -⟩ := emits_assign h
      exact fun i hi => .inl (assignCode_isStraight _ f target index value i hi)
  | call call =>
      obtain ⟨-, rfl, -⟩ := emits_call h
      have hstraight := (call.code_isStraight o.operatorOrder f).append
        (.of_cons (i := .pop .temp 0) rfl .of_nil)
      exact fun i hi => .inl (hstraight i hi)
  | ret value =>
      obtain ⟨-, rfl, -⟩ := emits_ret h
      cases value with
      | none => simp [returnCode, Trail.of, pushConstant, Instruction.isStraight]
      | some v =>
          refine Trail.forall_items_append (fun i hi => ?_) (by simp [Trail.of])
          exact .inl (v.code_isStraight _ f i hi)
  | branch | loop => cases hs

/-- A statement without statements inside has no label. -/
theorem Stmt.plain_labels {o : Options} {f : Frame} {s : Stmt} (hs : s.numbered? = none)
    {c c' : Counters} {code : List Instruction} (h : (s.emit o f).Emits c code c') :
    labels code = [] := by
  apply List.filterMap_eq_nil_iff.mpr
  intro i hi
  obtain hstraight | rfl := plain_instructions hs h i hi
  · exact Instruction.label?_of_isStraight hstraight
  · rfl

/-- A statement without statements inside has no jump. -/
theorem Stmt.plain_jumps {o : Options} {f : Frame} {s : Stmt} (hs : s.numbered? = none)
    {c c' : Counters} {code : List Instruction} (h : (s.emit o f).Emits c code c') :
    jumps code = [] := by
  apply List.filterMap_eq_nil_iff.mpr
  intro i hi
  obtain hstraight | rfl := plain_instructions hs h i hi
  · exact Instruction.jump?_of_isStraight hstraight
  · rfl

/-- Every jump of a statement leads to a label of the statement. -/
theorem jumps_invariant (o : Options) (f : Frame) :
    EmissionInvariant o f fun _ _ code _ => jumps code ⊆ labels code where
  nil := fun _ => List.Subset.refl _
  append := by
    intro ss ts c d c' xs ys hxs hys
    rw [jumps_append, labels_append]
    exact List.append_subset.mpr
      ⟨List.subset_append_of_subset_left _ hxs, List.subset_append_of_subset_right _ hys⟩
  plain := by
    intro s c code hs h
    rw [Stmt.plain_jumps hs h]
    exact List.nil_subset _
  branch := by
    intro cond yes c c' ys code hcode _ _ h
    rw [hcode, jumps_branchLines, labels_branchLines]
    intro l hl
    have := @h l
    simp only [List.mem_cons, List.mem_append] at hl ⊢
    tauto
  branchElse := by
    intro cond yes no c d c' ys zs code hcode _ _ h h'
    rw [hcode, jumps_branchElseLines, labels_branchElseLines]
    intro l hl
    have := @h l
    have := @h' l
    simp only [List.mem_cons, List.mem_append] at hl ⊢
    tauto
  loop := by
    intro cond body c c' ys code hcode _ _ h
    rw [hcode, jumps_loopLines, labels_loopLines]
    intro l hl
    have := @h l
    simp only [List.mem_cons, List.mem_append] at hl ⊢
    tauto
  shift := fun _ h => h

/-- The labels of a block are numbered ones. -/
theorem emitBlock_labels_numbered {o : Options} {f : Frame} {ss : List Stmt} {c : Counters}
    {l : Label} (h : l ∈ labels (emitBlock o f ss c).1.items) : ∃ stem n, l = .numbered stem n := by
  obtain ⟨i, hi, hl⟩ := List.mem_filterMap.mp h
  have hform := emitBlock_ofStmt o ss (List.Subset.refl _) c i hi
  cases hform with
  | label stem n => exact ⟨stem, n, (Option.some_inj.mp hl).symm⟩
  | expr h => cases (Instruction.label?_of_isStraight h.isStraight).symm.trans hl
  | _ => cases hl

namespace ClassTree

variable (o : Options) (c : ClassTree) (s : Subroutine)

/-- A function has no label and no jump before its body. -/
theorem opening_label?_jump? : ∀ i ∈ c.opening s, i.label? = none ∧ i.jump? = none := by
  refine List.forall_mem_cons.mpr ⟨⟨rfl, rfl⟩, fun i hi => ?_⟩
  have hstraight := s.kind.prologue_isStraight _ i hi
  exact ⟨Instruction.label?_of_isStraight hstraight, Instruction.jump?_of_isStraight hstraight⟩

theorem labels_function :
    labels (c.opening s ++ (c.bodyCode o s).items) = labels (c.bodyCode o s).items := by
  have hopening : labels (c.opening s) = [] :=
    List.filterMap_eq_nil_iff.mpr fun i hi => (opening_label?_jump? c s i hi).1
  rw [labels_append, hopening, List.nil_append]

theorem jumps_function :
    jumps (c.opening s ++ (c.bodyCode o s).items) = jumps (c.bodyCode o s).items := by
  have hopening : jumps (c.opening s) = [] :=
    List.filterMap_eq_nil_iff.mpr fun i hi => (opening_label?_jump? c s i hi).2
  rw [jumps_append, hopening, List.nil_append]

end ClassTree

/-! ## Labels between counters -/

/-- The numbered statement whose counter numbers a stem. -/
def LabelStem.counter : LabelStem → Numbered
  | ifTrue | ifFalse | ifEnd => .conditional
  | whileStart | whileEnd => .loop

/-- A label is numbered by a counter on its way from one value to another. -/
def Label.Between (c c' : Counters) (l : Label) : Prop :=
  ∃ stem n, l = .numbered stem n ∧ c.get stem.counter ≤ n ∧ n < c'.get stem.counter

/-- Labels are distinct and all numbered on the way from some counters to others. -/
structure LabelsBetween (c c' : Counters) (ls : List Label) : Prop where
  le : ∀ k, c.get k ≤ c'.get k
  nodup : ls.Nodup
  between : ∀ l ∈ ls, l.Between c c'

namespace LabelsBetween

variable {c c' c'' : Counters} {ls ms : List Label}

theorem nil (c : Counters) : LabelsBetween c c [] :=
  ⟨fun _ => Nat.le_refl _, List.nodup_nil, fun _ h => absurd h List.not_mem_nil⟩

theorem append (h : LabelsBetween c c' ls) (h' : LabelsBetween c' c'' ms) :
    LabelsBetween c c'' (ls ++ ms) := by
  refine ⟨fun k => Nat.le_trans (h.le k) (h'.le k), ?_, ?_⟩
  · refine List.nodup_append.mpr ⟨h.nodup, h'.nodup, ?_⟩
    rintro l hl m hm rfl
    obtain ⟨stem, n, rfl, -, hn⟩ := h.between l hl
    obtain ⟨stem', n', heq, hn', -⟩ := h'.between _ hm
    cases heq
    omega
  · intro l hl
    rcases List.mem_append.mp hl with hl | hl
    · obtain ⟨stem, n, rfl, hlo, hhi⟩ := h.between l hl
      exact ⟨stem, n, rfl, hlo, Nat.lt_of_lt_of_le hhi (h'.le _)⟩
    · obtain ⟨stem, n, rfl, hlo, hhi⟩ := h'.between l hl
      exact ⟨stem, n, rfl, Nat.le_trans (h.le _) hlo, hhi⟩

theorem perm (h : LabelsBetween c c' ls) (hp : ls.Perm ms) : LabelsBetween c c' ms :=
  ⟨h.le, hp.nodup_iff.mp h.nodup, fun l hl => h.between l (hp.mem_iff.mpr hl)⟩

/-- Labels of different stems can share the number that one step of a counter takes. -/
theorem increment {k : Numbered} (stems : List LabelStem) (hs : stems.Nodup)
    (hk : ∀ s ∈ stems, s.counter = k) (c : Counters) :
    LabelsBetween c (c.increment k) (stems.map fun s => .numbered s (c.get k)) := by
  have hget : ∀ l, (c.increment k).get l = if k = l then c.get l + 1 else c.get l :=
    fun l => c.get_update k l _
  refine ⟨fun l => ?_, ?_, ?_⟩
  · rw [hget]
    split <;> omega
  · exact List.Pairwise.map _ (fun a b hab h => hab (by cases h; rfl)) hs
  · intro l hl
    obtain ⟨s, hs, rfl⟩ := List.mem_map.mp hl
    refine ⟨s, c.get k, rfl, ?_, ?_⟩
    · exact Nat.le_of_eq (by rw [hk s hs])
    · rw [hk s hs, hget, if_pos rfl]
      omega

end LabelsBetween

/-- Under unique numbering the labels of statements are distinct and take the numbers that the
counters pass. -/
theorem labelsBetween_invariant {o : Options} (ho : o.ifNumbering = .unique) (f : Frame) :
    EmissionInvariant o f fun _ c code c' => LabelsBetween c c' (labels code) where
  nil := LabelsBetween.nil
  append := by
    intro ss ts c d c' xs ys hxs hys
    rw [labels_append]
    exact hxs.append hys
  plain := by
    intro s c code hs h
    rw [Stmt.plain_labels hs h]
    exact .nil c
  branch := by
    intro cond yes c c' ys code hcode _ _ hyes
    have hown := LabelsBetween.increment (k := .conditional) [.ifTrue, .ifFalse]
      (by decide) (by decide) c
    rw [ho] at hyes
    rw [hcode, labels_branchLines]
    exact (hown.append hyes).perm (.cons _ (List.perm_append_singleton _ _).symm)
  branchElse := by
    intro cond yes no c d c' ys zs code hcode _ _ hyes hno
    have hown := LabelsBetween.increment (k := .conditional) [.ifTrue, .ifFalse, .ifEnd]
      (by decide) (by decide) c
    have hend := List.perm_append_singleton (Label.numbered .ifEnd c.conditionals)
      (labels ys ++ labels zs)
    rw [List.append_assoc] at hend
    rw [ho] at hyes
    rw [hcode, labels_branchElseLines]
    refine (hown.append (hyes.append hno)).perm ?_
    exact .cons _ (List.Perm.symm (List.perm_middle.trans (.cons _ hend)))
  loop := by
    intro cond body c c' ys code hcode _ _ hbody
    have hown := LabelsBetween.increment (k := .loop) [.whileStart, .whileEnd]
      (by decide) (by decide) c
    rw [hcode, labels_loopLines]
    exact (hown.append hbody).perm (.cons _ (List.perm_append_singleton _ _).symm)
  shift := by
    intro ss c code d hnested
    cases ho.symm.trans hnested

end JackCompiler
