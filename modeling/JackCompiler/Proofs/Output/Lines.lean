import JackCompiler.Proofs.ControlFlow.Labels
import JackCompiler.Proofs.Declarations.Scopes
import JackCompiler.Proofs.Delivery.Unlimited
import JackCompiler.Proofs.Mentions.Places

/-!
# Lines of a listing

A line shows the words of its instruction with a blank between each two. No name, number or label of
a source that parses holds a blank or a line feed, so a listing can be split into its lines, a line
into its words, and the words are those of one instruction only. Different outputs have different
texts.
-/

namespace JackCompiler

/-- A text without blanks and line feeds. -/
def IsSolid (text : String) : Prop :=
  ∀ c ∈ text.toList, c ≠ ' ' ∧ c ≠ '\n'

instance : DecidablePred IsSolid :=
  fun text => List.decidableBAll (fun c => c ≠ ' ' ∧ c ≠ '\n') text.toList

namespace IsSolid

theorem append {a b : String} (ha : IsSolid a) (hb : IsSolid b) : IsSolid (a ++ b) := by
  intro c hc
  rw [String.toList_append] at hc
  rcases List.mem_append.mp hc with hc | hc
  · exact ha c hc
  · exact hb c hc

theorem qualified {a b : String} (ha : IsSolid a) (hb : IsSolid b) : IsSolid (a ++ "." ++ b) :=
  (ha.append (by decide)).append hb

theorem number (n : Nat) : IsSolid (toString n) := by
  intro c hc
  rw [Nat.toString_eq_repr, Nat.toList_repr] at hc
  have hdigit := Nat.isDigit_of_mem_toDigits (by decide) (by decide) hc
  constructor
  · rintro rfl
    cases hdigit
  · rintro rfl
    cases hdigit

/-- The text of a numbered label is solid. -/
theorem label (stem : LabelStem) (n : Nat) : IsSolid (Label.numbered stem n).text := by
  have hstem : IsSolid stem.text := by cases stem <;> decide
  exact hstem.append (.number n)

end IsSolid

theorem IsWordText.isSolid {text : String} (h : IsWordText text) : IsSolid text := by
  intro c hc
  have hchar := h.chars c hc
  constructor
  · rintro rfl
    cases hchar
  · rintro rfl
    cases hchar

theorem Segment.text_injective {a b : Segment} (h : a.text = b.text) : a = b := by
  cases a <;> cases b <;> first | rfl | exact absurd h (by decide)

theorem Command.text_injective {a b : Command} (h : a.text = b.text) : a = b := by
  cases a <;> cases b <;> first | rfl | exact absurd h (by decide)

/-- Different numbered labels have different texts. -/
theorem Label.eq_of_text {a b : Label} (ha : ∃ stem n, a = .numbered stem n)
    (hb : ∃ stem n, b = .numbered stem n) (h : a.text = b.text) : a = b := by
  obtain ⟨stem, n, rfl⟩ := ha
  obtain ⟨stem', n', rfl⟩ := hb
  obtain ⟨rfl, rfl⟩ := Label.text_numbered_injective h
  rfl

namespace Instruction

/-! ## Words of an instruction -/

/-- The words of an instruction. -/
def words : Instruction → List String
  | push segment index => ["push", segment.text, toString index.toNat]
  | pop segment index => ["pop", segment.text, toString index.toNat]
  | command c => [c.text]
  | label l => ["label", l.text]
  | goto l => ["goto", l.text]
  | ifGoto l => ["if-goto", l.text]
  | call name args => ["call", name, toString args]
  | function name locals => ["function", name, toString locals]
  | ret => ["return"]

theorem text_eq_intercalate (i : Instruction) : i.text = " ".intercalate i.words := by
  cases i <;> rfl

/-- An instruction whose line can be read back: its words are solid, and its label is numbered. -/
structure Legible (i : Instruction) : Prop where
  solid : ∀ w ∈ i.words, IsSolid w
  numbered : ∀ l, i.label? = some l ∨ i.jump? = some l → ∃ stem n, l = .numbered stem n

variable {i j : Instruction}

/-- A legible line is split at its blanks into the words of the instruction. -/
theorem Legible.splitOn_text (h : i.Legible) :
    i.text.toList.splitOn ' ' = i.words.map String.toList := by
  have hne : i.words.map String.toList ≠ [] := by cases i <;> exact List.cons_ne_nil _ _
  have hblank : ∀ l ∈ i.words.map String.toList, ' ' ∉ l := by
    intro l hl hmem
    obtain ⟨w, hw, rfl⟩ := List.mem_map.mp hl
    exact (h.solid w hw _ hmem).1 rfl
  rw [text_eq_intercalate, String.toList_intercalate]
  exact List.splitOn_intercalate ' ' hblank hne

theorem mem_intercalate {x c : Char} {ls : List (List Char)} (h : c ∈ [x].intercalate ls) :
    c = x ∨ ∃ l ∈ ls, c ∈ l := by
  induction ls with
  | nil => cases h
  | cons l ls ih =>
      cases ls with
      | nil =>
          rw [List.intercalate_singleton] at h
          exact .inr ⟨l, List.mem_cons_self, h⟩
      | cons l' ls =>
          rw [List.intercalate_cons_cons, List.mem_append, List.mem_append] at h
          rcases h with (h | h) | h
          · exact .inr ⟨l, List.mem_cons_self, h⟩
          · exact .inl (List.mem_singleton.mp h)
          · exact (ih h).imp_right fun ⟨k, hk, hc⟩ => ⟨k, List.mem_cons_of_mem _ hk, hc⟩

theorem Legible.newline_notMem (h : i.Legible) : '\n' ∉ i.text.toList := by
  rw [text_eq_intercalate, String.toList_intercalate]
  intro hmem
  rcases mem_intercalate hmem with heq | ⟨l, hl, hmem⟩
  · cases heq
  · obtain ⟨w, hw, rfl⟩ := List.mem_map.mp hl
    exact (h.solid w hw _ hmem).2 rfl

/-- The first word of an instruction tells its form, and the others what it is about. -/
theorem words_injective (hi : i.Legible) (hj : j.Legible) (h : i.words = j.words) : i = j := by
  have hnumber {m n : Nat} (hmn : toString m = toString n) : m = n := by
    have hdigits : Nat.toDigits 10 m = Nat.toDigits 10 n := by
      rw [← Nat.toList_repr, ← Nat.toString_eq_repr, hmn, Nat.toString_eq_repr, Nat.toList_repr]
    rw [← Nat.ofDigitChars_ten_toDigits (n := m), hdigits, Nat.ofDigitChars_ten_toDigits]
  have hindex {m n : UInt16} (hmn : toString m.toNat = toString n.toNat) : m = n :=
    UInt16.toNat_inj.mp (hnumber hmn)
  cases i <;> cases j <;>
    simp only [words, List.cons.injEq, String.reduceEq, reduceCtorEq, and_true, true_and, and_false,
      false_and] at h
  case push.push => exact congrArg₂ push (Segment.text_injective h.1) (hindex h.2)
  case pop.pop => exact congrArg₂ pop (Segment.text_injective h.1) (hindex h.2)
  case command.command => exact congrArg command (Command.text_injective h)
  case command.ret c => exact absurd h (by cases c <;> decide)
  case ret.command c => exact absurd h (by cases c <;> decide)
  case label.label =>
    exact congrArg label (Label.eq_of_text (hi.numbered _ (.inl rfl)) (hj.numbered _ (.inl rfl)) h)
  case goto.goto =>
    exact congrArg goto (Label.eq_of_text (hi.numbered _ (.inr rfl)) (hj.numbered _ (.inr rfl)) h)
  case ifGoto.ifGoto =>
    exact congrArg ifGoto (Label.eq_of_text (hi.numbered _ (.inr rfl)) (hj.numbered _ (.inr rfl)) h)
  case call.call => exact congrArg₂ call h.1 (hnumber h.2)
  case function.function => exact congrArg₂ function h.1 (hnumber h.2)
  case ret.ret => rfl

theorem text_injective (hi : i.Legible) (hj : j.Legible) (h : i.text = j.text) : i = j := by
  have hwords : i.words.map String.toList = j.words.map String.toList := by
    rw [← hi.splitOn_text, ← hj.splitOn_text, h]
  exact words_injective hi hj ((List.map_injective_iff.mpr fun _ _ => String.toList_inj.mp) hwords)

end Instruction

/-! ## Lines of a listing -/

/-- The lines of a text. What stands behind its last line feed is the last of them. -/
def textLines (text : String) : List (List Char) :=
  text.toList.splitOn '\n'

/-- The lines of an instruction come before those of the instructions behind it. -/
theorem textLines_listing_cons (i : Instruction) (is : List Instruction) :
    textLines (listing (i :: is)) = textLines i.text ++ textLines (listing is) := by
  rw [listing_cons, Instruction.line, textLines, String.toList_append, String.toList_append,
    List.append_assoc]
  exact List.splitOn_append_cons_self _ _

/-- A legible listing has a line for each of its instructions. -/
theorem textLines_listing {code : List Instruction} (h : ∀ i ∈ code, i.Legible) :
    textLines (listing code) = code.map (·.text.toList) ++ [[]] := by
  induction code with
  | nil => rfl
  | cons i is ih =>
      obtain ⟨hi, his⟩ := List.forall_mem_cons.mp h
      rw [textLines_listing_cons, ih his, textLines, List.splitOn_eq_singleton hi.newline_notMem]
      rfl

namespace Instruction

/-- The texts that code takes from a source are words. -/
structure WordTexts (f : Frame) (ms : List Mention) : Prop where
  className : IsWordText f.className
  types : ∀ {x : String} {v : Variable}, f.lookup? x = some v → IsWordText v.type.text
  names : ∀ {role : Role} {n : Name}, .name role n ∈ ms → IsWordText n.text

end Instruction

open Instruction

/-- The texts that the code of a subroutine takes from a source that parses are words. -/
theorem wordTexts_of_parse {source : String} {tree : ClassTree}
    (h : (parse source).outcome = .ok tree) {s : Subroutine} (hs : s ∈ tree.subroutines) :
    WordTexts (tree.frame s) s.mentions := by
  obtain ⟨hdecomposes, hwritten⟩ := parse_ok_writtenIn h
  have hclass : IsWordText tree.name.text :=
    (hdecomposes.isNameText_of_writtenBy (hwritten.names _ List.mem_cons_self)).toIsWordText
  refine ⟨hclass, fun {x v} hv => ?_, fun {role n} hn => ?_⟩
  · rcases (ClassTree.lookup?_cases hv).2 with hreceiver | ⟨p, hp, -, rfl⟩ | ⟨p, hp, -, rfl⟩
    · cases hk : s.kind with
      | method =>
          rw [hk] at hreceiver
          obtain rfl := List.mem_singleton.mp hreceiver
          exact hclass
      | constructor | function =>
          rw [hk] at hreceiver
          cases hreceiver
    · exact hdecomposes.isWordText_type (hwritten.localTypes s hs _ (mem_of_mem_numbered hp))
    · exact hdecomposes.isWordText_type (hwritten.types _ (mem_of_mem_numbered hp))
  · exact (hdecomposes.isNameText_of_writtenBy
      ((hwritten.mentions s hs).exists_token hn)).toIsWordText

end JackCompiler
