import JackCompiler.Proofs.Lexis.Pieces
import JackCompiler.Proofs.Syntax.Scanning

/-!
# Skipping a gap

Skipping succeeds on a text exactly if the text is a gap and one that no gap begins, and then it
stops between the two.

## Implementation notes

A walk over a gap may be asked about while it is inside a comment. `Gap.Passed` says for each mode
what such a walk still has to pass, so that one induction on the walk covers all three.
-/

namespace JackCompiler

/-- No gap begins with the first characters of a text. -/
def Settled : List Char → Prop
  | [] => True
  | c :: cs => isBlank c = false ∧ (c = '/' → ∀ d ∈ cs.head?, d ≠ '/' ∧ d ≠ '*')

/-- What a walk in a given mode passes before a text. -/
def Gap.Passed : Gap → List Char → List Char → Prop
  | between, passed, after => IsGap passed after
  | lineComment, passed, after => ∃ body gap, passed = body ++ gap ∧
      (∀ c ∈ body, isLineBreak c = false) ∧ (∀ c ∈ (gap ++ after).head?, isLineBreak c = true) ∧
      IsGap gap after
  | blockComment _, passed, after => ∃ body gap, passed = body ++ '*' :: '/' :: gap ∧
      ¬['*', '/'] <:+: body ++ ['*'] ∧ IsGap gap after

theorem infix_close_cons_iff {c : Char} {body : List Char} :
    ['*', '/'] <:+: (c :: body) ++ ['*'] ↔
      (c = '*' ∧ body.head? = some '/') ∨ ['*', '/'] <:+: body ++ ['*'] := by
  rw [List.cons_append, List.infix_cons_iff, List.cons_prefix_cons]
  cases body with
  | nil => simp [eq_comm]
  | cons d body => simp [eq_comm]

/-- A walk that succeeds has passed what its mode asks for and stands where no gap begins. -/
theorem skipGap_passed {g : Gap} {offset : Nat} {cs : List Char} {s : Scanner}
    (h : skipGap g offset cs = (.ok (), s)) :
    ∃ passed, cs = passed ++ s.rest ∧ g.Passed passed s.rest ∧ Settled s.rest := by
  fun_induction skipGap g offset cs with
  | case1 offset cs ih =>
      obtain ⟨_, rfl, ⟨body, gap, rfl, hbody, hhead, hgap⟩, hsettled⟩ := ih h
      exact ⟨'/' :: '/' :: (body ++ gap), rfl, .lineComment hbody hhead hgap, hsettled⟩
  | case2 offset cs ih =>
      obtain ⟨_, rfl, ⟨body, gap, rfl, hbody, hgap⟩, hsettled⟩ := ih h
      exact ⟨'/' :: '*' :: (body ++ '*' :: '/' :: gap), rfl, .blockComment hbody hgap, hsettled⟩
  | case3 offset c cs _ _ hblank ih =>
      obtain ⟨gap, rfl, hgap, hsettled⟩ := ih h
      exact ⟨c :: gap, rfl, .blank hblank hgap, hsettled⟩
  | case4 offset c cs hline hblock hblank =>
      cases h
      refine ⟨[], rfl, .nil, by simpa using hblank, fun hc d hd => ?_⟩
      obtain ⟨ds, rfl⟩ := List.head?_eq_some_iff.mp hd
      constructor
      · rintro rfl
        exact hline ds hc rfl
      · rintro rfl
        exact hblock ds hc rfl
  | case5 offset =>
      cases h
      exact ⟨[], rfl, .nil, trivial⟩
  | case6 offset c cs hbreak ih =>
      obtain ⟨gap, rfl, hgap, hsettled⟩ := ih h
      refine ⟨c :: gap, rfl, ⟨[], c :: gap, rfl, by simp, ?_, ?_⟩, hsettled⟩
      · simpa using hbreak
      · exact .blank (isBlank_of_isLineBreak hbreak) hgap
  | case7 offset c cs hbreak ih =>
      obtain ⟨_, rfl, ⟨body, gap, rfl, hbody, hhead, hgap⟩, hsettled⟩ := ih h
      refine ⟨c :: (body ++ gap), rfl, ⟨c :: body, gap, rfl, ?_, hhead, hgap⟩, hsettled⟩
      simpa [hbreak] using hbody
  | case8 offset =>
      cases h
      exact ⟨[], rfl, ⟨[], [], rfl, by simp, by simp, .nil⟩, trivial⟩
  | case9 start offset cs ih =>
      obtain ⟨gap, rfl, hgap, hsettled⟩ := ih h
      exact ⟨'*' :: '/' :: gap, rfl, ⟨[], gap, rfl, by decide, hgap⟩, hsettled⟩
  | case10 start offset c cs hopen ih =>
      obtain ⟨_, rfl, ⟨body, gap, rfl, hbody, hgap⟩, hsettled⟩ := ih h
      refine ⟨c :: (body ++ '*' :: '/' :: gap), rfl, ⟨c :: body, gap, rfl, ?_, hgap⟩, hsettled⟩
      rw [infix_close_cons_iff]
      rintro (⟨rfl, hhead⟩ | hlater)
      · cases body with
        | nil => cases hhead
        | cons d body =>
            obtain rfl := Option.some_inj.mp hhead
            exact hopen _ rfl rfl
      · exact hbody hlater
  | case11 => cases h

theorem skipGap_between {c : Char} {cs : List Char}
    (hslash : c = '/' → ∀ d ∈ cs.head?, d ≠ '/' ∧ d ≠ '*') (offset : Nat) :
    skipGap .between offset (c :: cs) =
      if isBlank c then skipGap .between (offset + c.utf8Size) cs
      else (.ok (), ⟨offset, c :: cs⟩) := by
  rw [skipGap.eq_def]
  split
  · next heq =>
    cases heq
    exact absurd rfl (hslash rfl '/' rfl).1
  · next heq =>
    cases heq
    exact absurd rfl (hslash rfl '*' rfl).2
  · next heq =>
    cases heq
    rfl
  all_goals contradiction

theorem skipGap_blank {c : Char} (hc : isBlank c = true) (offset : Nat) (cs : List Char) :
    skipGap .between offset (c :: cs) = skipGap .between (offset + c.utf8Size) cs := by
  rw [skipGap_between, if_pos hc]
  rintro rfl
  cases hc

/-- A walk stays where no gap begins. -/
theorem skipGap_of_settled {cs : List Char} (hcs : Settled cs) (offset : Nat) :
    skipGap .between offset cs = (.ok (), ⟨offset, cs⟩) := by
  cases cs with
  | nil => rfl
  | cons c cs => rw [skipGap_between hcs.2, if_neg (by simp [hcs.1])]

theorem skipGap_blockComment_cons {c : Char} {cs : List Char}
    (hopen : c = '*' → cs.head? ≠ some '/') (start offset : Nat) :
    skipGap (.blockComment start) offset (c :: cs) =
      skipGap (.blockComment start) (offset + c.utf8Size) cs := by
  rw [skipGap.eq_def]
  split
  case h_7 heq =>
    cases heq
    exact absurd rfl (hopen rfl)
  case h_8 hmode heq =>
    cases hmode
    cases heq
    rfl
  all_goals contradiction

/-- A line comment is passed up to the line break or the end behind it. -/
theorem skipGap_lineComment {body : List Char} (hbody : ∀ c ∈ body, isLineBreak c = false)
    {cs : List Char} (hcs : ∀ c ∈ cs.head?, isLineBreak c = true) (offset : Nat) :
    ∃ n, skipGap .lineComment offset (body ++ cs) = skipGap .between n cs := by
  induction body generalizing offset with
  | nil =>
      cases cs with
      | nil => exact ⟨offset, rfl⟩
      | cons c cs =>
          have hbreak : isLineBreak c = true := hcs c rfl
          refine ⟨offset, ?_⟩
          rw [List.nil_append, skipGap_blank (isBlank_of_isLineBreak hbreak)]
          exact if_pos hbreak
  | cons c body ih =>
      obtain ⟨hc, hbody⟩ := List.forall_mem_cons.mp hbody
      obtain ⟨n, hn⟩ := ih hbody (offset + c.utf8Size)
      exact ⟨n, (if_neg (by simp [hc])).trans hn⟩

/-- A block comment is passed through the first place that closes it. -/
theorem skipGap_blockComment {body : List Char} (hbody : ¬['*', '/'] <:+: body ++ ['*'])
    (start offset : Nat) (cs : List Char) :
    skipGap (.blockComment start) offset (body ++ '*' :: '/' :: cs) =
      skipGap .between (offset + byteCount body + 2) cs := by
  induction body generalizing offset with
  | nil => rfl
  | cons c body ih =>
      rw [infix_close_cons_iff, not_or] at hbody
      obtain ⟨hhead, hbody⟩ := hbody
      rw [byteCount_cons, ← Nat.add_assoc, ← ih hbody]
      refine skipGap_blockComment_cons (fun hc hnext => hhead ⟨hc, ?_⟩) _ _
      cases body with
      | nil => cases hnext
      | cons d body => exact hnext

/-- A walk passes a gap and stops where none begins. -/
theorem skipGap_of_isGap {gap after : List Char} (hgap : IsGap gap after) (hafter : Settled after)
    (offset : Nat) : ∃ n, skipGap .between offset (gap ++ after) = (.ok (), ⟨n, after⟩) := by
  induction hgap generalizing offset with
  | nil => exact ⟨offset, skipGap_of_settled hafter offset⟩
  | @blank c gap after hc _ ih =>
      rw [List.cons_append, skipGap_blank hc]
      exact ih hafter _
  | @lineComment body gap after hbody hhead _ ih =>
      obtain ⟨n, hn⟩ := skipGap_lineComment hbody hhead (offset + 2)
      obtain ⟨n', hn'⟩ := ih hafter n
      refine ⟨n', ?_⟩
      rw [List.cons_append, List.cons_append, List.append_assoc]
      exact hn.trans hn'
  | @blockComment body gap after hbody _ ih =>
      have hn := skipGap_blockComment hbody offset (offset + 2) (gap ++ after)
      obtain ⟨n', hn'⟩ := ih hafter (offset + 2 + byteCount body + 2)
      refine ⟨n', ?_⟩
      rw [List.cons_append, List.cons_append, List.append_assoc, List.cons_append,
        List.cons_append]
      exact hn.trans hn'

/-- Skipping succeeds with a scanner exactly if it passes a gap to where no other begins. -/
theorem skipGap_eq_ok_iff {offset : Nat} {cs : List Char} {s : Scanner} :
    skipGap .between offset cs = (.ok (), s) ↔
      ∃ gap, cs = gap ++ s.rest ∧ s.offset = offset + byteCount gap ∧ IsGap gap s.rest ∧
        Settled s.rest := by
  constructor
  · intro h
    obtain ⟨gap, hcs, hgap, hsettled⟩ := skipGap_passed h
    obtain ⟨pre, hpre, hoffset⟩ := skipGap_advances .between offset cs
    rw [h] at hpre hoffset
    obtain rfl := List.append_cancel_right (hcs.symm.trans hpre)
    exact ⟨gap, hcs, hoffset, hgap, hsettled⟩
  · rintro ⟨gap, rfl, hoffset, hgap, hsettled⟩
    obtain ⟨n, hn⟩ := skipGap_of_isGap hgap hsettled offset
    obtain ⟨pre, hpre, hn'⟩ := skipGap_advances .between offset (gap ++ s.rest)
    rw [hn] at hpre hn'
    obtain rfl := List.append_cancel_right hpre
    rw [hn, show n = s.offset from hn'.trans hoffset.symm]

end JackCompiler
