import JackCompiler.Proofs.Output.Lines

/-!
# Words of a line

The words of a line are read one by one: decimal numbers, labels, names of functions and cells of
segments. A reader takes exactly the words that something is written as, and gives it back.
-/

namespace JackCompiler

/-! ## Numbers -/

/-- Digits that write a number: at least one, and no zero before others. -/
structure IsDecimal (cs : List Char) : Prop where
  ne_nil : cs ≠ []
  digits : ∀ c ∈ cs, c.isDigit = true
  leading : cs.head? = some '0' → cs = ['0']

theorem isDecimal_iff {cs : List Char} : IsDecimal cs ↔
    cs ≠ [] ∧ cs.all Char.isDigit = true ∧ (cs.head? = some '0' → cs = ['0']) :=
  ⟨fun h => ⟨h.ne_nil, List.all_eq_true.mpr h.digits, h.leading⟩,
    fun h => ⟨h.1, List.all_eq_true.mp h.2.1, h.2.2⟩⟩

instance : DecidablePred IsDecimal :=
  fun _ => decidable_of_iff' _ isDecimal_iff

/-- The number that digits write. -/
def readNumber? (word : String) : Option Nat :=
  if IsDecimal word.toList then some (Nat.ofDigitChars 10 word.toList 0) else none

/-- Only zero is written with a zero first. -/
theorem toDigits_head? {n : Nat} (h : (Nat.toDigits 10 n).head? = some '0') : n = 0 := by
  induction n using Nat.strong_induction_on with
  | _ n ih =>
      by_cases hlt : n < 10
      · rw [Nat.toDigits_of_lt_base hlt] at h
        exact Nat.digitChar_eq_zero.mp (Option.some_inj.mp h)
      · rw [Nat.toDigits_of_base_le (by decide) (Nat.le_of_not_lt hlt),
          List.head?_append_of_ne_nil _ Nat.toDigits_ne_nil] at h
        have hquotient := ih (n / 10) (by omega) h
        omega

theorem isDecimal_toDigits (n : Nat) : IsDecimal (Nat.toDigits 10 n) where
  ne_nil := Nat.toDigits_ne_nil
  digits := fun _ hc => Nat.isDigit_of_mem_toDigits (by decide) (by decide) hc
  leading := by
    intro hzero
    rw [toDigits_head? hzero, Nat.toDigits_zero]

theorem toNat_isDigit {c : Char} (h : c.isDigit = true) :
    c.toNat - '0'.toNat < 10 ∧ Nat.digitChar (c.toNat - '0'.toNat) = c := by
  have hzero : '0'.toNat = 48 := rfl
  have hrange : 48 ≤ c.toNat ∧ c.toNat ≤ 57 := by
    rw [Char.isDigit, Bool.and_eq_true, decide_eq_true_eq, decide_eq_true_eq] at h
    exact h
  have hlt : c.toNat - '0'.toNat < 10 := by omega
  refine ⟨hlt, Char.toNat_inj.mp ?_⟩
  rw [Nat.toNat_digitChar_of_lt_ten hlt]
  omega

/-- Digits behind a number other than zero are the last digits of a larger number. -/
theorem toDigits_ofDigitChars {cs : List Char} (h : ∀ c ∈ cs, c.isDigit = true) {n : Nat}
    (hn : 0 < n) : Nat.toDigits 10 (Nat.ofDigitChars 10 cs n) = Nat.toDigits 10 n ++ cs := by
  induction cs generalizing n with
  | nil => rw [Nat.ofDigitChars_nil, List.append_nil]
  | cons c cs ih =>
      obtain ⟨hc, hcs⟩ := List.forall_mem_cons.mp h
      obtain ⟨hlt, hchar⟩ := toNat_isDigit hc
      calc Nat.toDigits 10 (Nat.ofDigitChars 10 (c :: cs) n)
        _ = Nat.toDigits 10 (10 * n + (c.toNat - '0'.toNat)) ++ cs := by
          rw [Nat.ofDigitChars_cons]
          exact ih hcs (by omega)
        _ = Nat.toDigits 10 n ++ [c] ++ cs := by
          rw [← Nat.toDigits_append_toDigits (by decide) hn hlt, Nat.toDigits_of_lt_base hlt, hchar]
        _ = Nat.toDigits 10 n ++ c :: cs := List.append_cons _ _ _ |>.symm

/-- Digits that write a number are the digits of that number. -/
theorem IsDecimal.toDigits {cs : List Char} (h : IsDecimal cs) :
    Nat.toDigits 10 (Nat.ofDigitChars 10 cs 0) = cs := by
  cases cs with
  | nil => exact absurd rfl h.ne_nil
  | cons c cs =>
      obtain ⟨hc, hcs⟩ := List.forall_mem_cons.mp h.digits
      obtain ⟨hlt, hchar⟩ := toNat_isDigit hc
      by_cases hzero : c = '0'
      · rw [h.leading (congrArg some hzero)]
        rfl
      · have hpos : 0 < c.toNat - '0'.toNat := by
          refine Nat.pos_of_ne_zero fun heq => hzero ?_
          rw [← hchar, heq]
          rfl
        rw [Nat.ofDigitChars_cons, Nat.mul_zero, Nat.zero_add, toDigits_ofDigitChars hcs hpos,
          Nat.toDigits_of_lt_base hlt, hchar, List.singleton_append]

theorem readNumber?_eq_some {word : String} {n : Nat} :
    readNumber? word = some n ↔ toString n = word := by
  have hdigits : (toString n).toList = Nat.toDigits 10 n := by
    rw [Nat.toString_eq_repr, Nat.toList_repr]
  rw [readNumber?, Option.ite_none_right_eq_some, ← String.toList_inj, hdigits, Option.some_inj]
  constructor
  · rintro ⟨hdecimal, rfl⟩
    exact hdecimal.toDigits
  · intro h
    rw [← h]
    exact ⟨isDecimal_toDigits n, Nat.ofDigitChars_ten_toDigits⟩

/-- The index that digits write. -/
def readIndex? (word : String) : Option UInt16 :=
  (readNumber? word).bind fun n => if n < UInt16.size then some (UInt16.ofNat n) else none

theorem readIndex?_eq_some {word : String} {n : UInt16} :
    readIndex? word = some n ↔ toString n.toNat = word := by
  rw [readIndex?, Option.bind_eq_some_iff]
  constructor
  · rintro ⟨m, hm, hn⟩
    obtain ⟨hlt, heq⟩ := Option.ite_none_right_eq_some.mp hn
    rw [← Option.some_inj.mp heq, UInt16.toNat_ofNat_of_lt' hlt]
    exact readNumber?_eq_some.mp hm
  · intro h
    refine ⟨n.toNat, readNumber?_eq_some.mpr h, ?_⟩
    rw [if_pos n.toNat_lt, UInt16.ofNat_toNat]

/-! ## Labels -/

/-- All stems. -/
def LabelStem.all : List LabelStem :=
  [ifTrue, ifFalse, ifEnd, whileStart, whileEnd]

/-- The label that a stem and the number behind it write. -/
def readLabel? (word : String) : Option Label :=
  LabelStem.all.findSome? fun stem =>
    (stem.text.toList.isPrefixOf? word.toList).bind fun digits =>
      (readNumber? (String.ofList digits)).map (.numbered stem)

/-- A label that is read is a numbered one and is written as the word. -/
theorem readLabel?_sound {word : String} {l : Label} (h : readLabel? word = some l) :
    ∃ stem n, l = .numbered stem n ∧ l.text = word := by
  obtain ⟨stem, -, hread⟩ := List.exists_of_findSome?_eq_some h
  obtain ⟨digits, hdigits, hread⟩ := Option.bind_eq_some_iff.mp hread
  obtain ⟨n, hn, rfl⟩ := Option.map_eq_some_iff.mp hread
  refine ⟨stem, n, rfl, String.toList_inj.mp ?_⟩
  calc (Label.numbered stem n).text.toList
    _ = stem.text.toList ++ (toString n).toList := String.toList_append
    _ = stem.text.toList ++ digits := by rw [readNumber?_eq_some.mp hn, String.toList_ofList]
    _ = word.toList := List.isPrefixOf?_eq_some_iff_append_eq.mp hdigits

theorem readLabel?_eq_some {word : String} {l : Label} :
    readLabel? word = some l ↔ ∃ stem n, l = .numbered stem n ∧ l.text = word := by
  refine ⟨readLabel?_sound, ?_⟩
  rintro ⟨stem, n, rfl, rfl⟩
  have hstem : stem.text.toList.isPrefixOf? (Label.numbered stem n).text.toList =
      some (toString n).toList :=
    List.isPrefixOf?_eq_some_iff_append_eq.mpr String.toList_append.symm
  have hread : (readLabel? (Label.numbered stem n).text).isSome = true := by
    refine List.findSome?_isSome_iff.mpr ⟨stem, by cases stem <;> decide, ?_⟩
    rw [hstem, Option.bind_some, String.ofList_toList, readNumber?_eq_some.mpr rfl]
    rfl
  -- Another stem cannot have been found first, for the two labels would have the same text.
  obtain ⟨l, hl⟩ := Option.isSome_iff_exists.mp hread
  obtain ⟨stem', n', rfl, htext⟩ := readLabel?_sound hl
  obtain ⟨rfl, rfl⟩ := Label.text_numbered_injective htext
  exact hl

/-! ## Names of functions -/

theorem isWordText_iff {text : String} : IsWordText text ↔
    text.toList ≠ [] ∧ text.toList.all isWordChar = true :=
  ⟨fun h => ⟨h.ne_empty, List.all_eq_true.mpr h.chars⟩,
    fun h => ⟨h.1, List.all_eq_true.mp h.2⟩⟩

instance : DecidablePred IsWordText :=
  fun _ => decidable_of_iff' _ isWordText_iff

theorem IsWordText.dot_notMem {text : String} (h : IsWordText text) : '.' ∉ text.toList :=
  fun hdot => absurd (h.chars _ hdot) (by decide)

/-- The name of a subroutine with that of its class before it. -/
def IsQualified (name : String) : Prop :=
  ∃ a b, IsWordText a ∧ IsWordText b ∧ name = a ++ "." ++ b

/-- The name that two words with a dot between them write. -/
def readName? (word : String) : Option String :=
  match word.toList.splitOn '.' with
  | [a, b] =>
      if IsWordText (String.ofList a) ∧ IsWordText (String.ofList b) then some word else none
  | _ => none

theorem readName?_eq_some {word name : String} :
    readName? word = some name ↔ IsQualified name ∧ name = word := by
  constructor
  · intro h
    unfold readName? at h
    split at h
    · next a b hsplit =>
      obtain ⟨⟨ha, hb⟩, heq⟩ := Option.ite_none_right_eq_some.mp h
      obtain rfl := Option.some_inj.mp heq
      refine ⟨⟨_, _, ha, hb, String.toList_inj.mp ?_⟩, rfl⟩
      calc word.toList
        _ = ['.'].intercalate (word.toList.splitOn '.') := (List.intercalate_splitOn '.').symm
        _ = (String.ofList a ++ "." ++ String.ofList b).toList := by simp [hsplit]
    · cases h
  · rintro ⟨⟨a, b, ha, hb, rfl⟩, rfl⟩
    have hsplit : (a ++ "." ++ b).toList.splitOn '.' = [a.toList, b.toList] := by
      have hlist : (a ++ "." ++ b).toList = a.toList ++ '.' :: b.toList := by simp
      rw [hlist, List.splitOn_append_cons_self, List.splitOn_eq_singleton ha.dot_notMem,
        List.splitOn_eq_singleton hb.dot_notMem]
      rfl
    unfold readName?
    rw [hsplit]
    dsimp only
    rw [String.ofList_toList, String.ofList_toList, if_pos ⟨ha, hb⟩]

/-! ## Cells -/

theorem Segment.ofText?_eq_some {word : String} {s : Segment} :
    Segment.ofText? word = some s ↔ s.text = word := by
  constructor
  · intro h
    have hfound := List.find?_some h
    exact eq_of_beq hfound
  · rintro rfl
    cases s <;> rfl

theorem Command.ofText?_eq_some {word : String} {c : Command} :
    Command.ofText? word = some c ↔ c.text = word := by
  constructor
  · intro h
    have hfound := List.find?_some h
    exact eq_of_beq hfound
  · rintro rfl
    cases c <;> rfl

/-- The indices that code uses in a segment: both cells of the pointers, and only the first cell of
the temporary segment and of the segment that the second pointer anchors. -/
def Segment.Admits : Segment → UInt16 → Prop
  | pointer, index => index = 0 ∨ index = 1
  | temp, index | that, index => index = 0
  | _, _ => True

instance (index : UInt16) : (s : Segment) → Decidable (s.Admits index)
  | .pointer => inferInstanceAs (Decidable (index = 0 ∨ index = 1))
  | .temp | .that => inferInstanceAs (Decidable (index = 0))
  | .constant | .locals | .argument | .static | .this => .isTrue trivial

/-- The cell that the name of a segment and an index write. -/
def readCell? (segment index : String) : Option (Segment × UInt16) := do
  let s ← Segment.ofText? segment
  let i ← readIndex? index
  if s.Admits i then some (s, i) else none

theorem readCell?_eq_some {segment index : String} {s : Segment} {i : UInt16} :
    readCell? segment index = some (s, i) ↔
      s.Admits i ∧ s.text = segment ∧ toString i.toNat = index := by
  simp only [readCell?, Option.bind_eq_bind, Option.bind_eq_some_iff, Segment.ofText?_eq_some,
    readIndex?_eq_some, Option.ite_none_right_eq_some, Option.some_inj, Prod.mk.injEq]
  constructor
  · rintro ⟨s', hs, i', hi, hadmits, rfl, rfl⟩
    exact ⟨hadmits, hs, hi⟩
  · rintro ⟨hadmits, hs, hi⟩
    exact ⟨s, hs, i, hi, hadmits, rfl, rfl⟩

end JackCompiler
