import JackCompiler.Proofs.Lexis.Fragments
import JackCompiler.Proofs.Syntax.Places
import Mathlib.Data.List.TakeWhile

/-!
# Slices of a source

A location is made of three slices of its source: the text before the offset, the part of it behind
the last line feed, and the line around the offset. All of them lie inside the source and end
between characters, wherever the offset stands between characters.
-/

namespace JackCompiler

/-- The characters of a text behind its last line feed. -/
def lastLine (cs : List Char) : List Char :=
  (cs.reverse.takeWhile (· != '\n')).reverse

/-- The characters of a text before its first line feed. -/
def firstLine (cs : List Char) : List Char :=
  cs.takeWhile (· != '\n')

/-- The characters of a text through its last line feed. -/
def linesBefore (cs : List Char) : List Char :=
  (cs.reverse.dropWhile (· != '\n')).reverse

theorem linesBefore_append_lastLine (cs : List Char) : linesBefore cs ++ lastLine cs = cs := by
  rw [linesBefore, lastLine, ← List.reverse_append, List.takeWhile_append_dropWhile,
    List.reverse_reverse]

theorem not_mem_lastLine (cs : List Char) : '\n' ∉ lastLine cs := by
  intro h
  simpa using List.mem_takeWhile_imp (List.mem_reverse.mp h)

theorem not_mem_firstLine (cs : List Char) : '\n' ∉ firstLine cs := by
  intro h
  simpa using List.mem_takeWhile_imp h

theorem linesBefore_eq_concat {cs : List Char} (h : '\n' ∈ cs) :
    ∃ lines, linesBefore cs = lines ++ ['\n'] := by
  have hne : cs.reverse.dropWhile (· != '\n') ≠ [] := by
    rw [ne_eq, List.dropWhile_eq_nil_iff]
    exact fun hall => by simpa using hall '\n' (List.mem_reverse.mpr h)
  have hhead := List.head_dropWhile_not (· != '\n') hne
  obtain ⟨c, rest, hdrop⟩ := List.exists_cons_of_ne_nil hne
  refine ⟨rest.reverse, ?_⟩
  simp only [hdrop, List.head_cons, bne_eq_false_iff_eq] at hhead
  rw [linesBefore, hdrop, hhead, List.reverse_cons]

theorem lastLine_of_not_mem {cs : List Char} (h : '\n' ∉ cs) :
    linesBefore cs = [] ∧ lastLine cs = cs := by
  have hall : ∀ c ∈ cs.reverse, (c != '\n') = true := fun c hc =>
    bne_iff_ne.mpr fun heq => h (heq ▸ List.mem_reverse.mp hc)
  rw [linesBefore, lastLine, List.dropWhile_eq_nil_iff.mpr hall, List.takeWhile_eq_self_iff.mpr hall,
    List.reverse_reverse]
  exact ⟨rfl, rfl⟩

theorem lastLine_append_feed (lines : List Char) {line : List Char} (h : '\n' ∉ line) :
    linesBefore (lines ++ '\n' :: line) = lines ++ ['\n'] ∧
      lastLine (lines ++ '\n' :: line) = line := by
  have hall : ∀ c ∈ line.reverse, (c != '\n') = true := fun c hc =>
    bne_iff_ne.mpr fun heq => h (heq ▸ List.mem_reverse.mp hc)
  have hreverse : (lines ++ '\n' :: line).reverse = line.reverse ++ '\n' :: lines.reverse := by
    simp
  rw [linesBefore, lastLine, hreverse, List.dropWhile_append_of_pos hall,
    List.takeWhile_append_of_pos hall]
  simp

theorem exists_firstLine_append (cs : List Char) : ∃ after, cs = firstLine cs ++ after :=
  ⟨_, List.takeWhile_append_dropWhile.symm⟩

/-! ## The line around an offset -/

theorem firstLine_cons {c : Char} (hc : c ≠ '\n') (cs : List Char) :
    firstLine (c :: cs) = c :: firstLine cs :=
  List.takeWhile_cons_of_pos (by simpa using hc)

theorem lineAroundFrom_cons {c : Char} (hc : c ≠ '\n') (target offset start : Nat)
    (line cs : List Char) : lineAroundFrom target offset start line (c :: cs) =
      lineAroundFrom target (offset + c.utf8Size) start (c :: line) cs := by
  rw [lineAroundFrom]
  · exact fun _ h => absurd h hc
  · exact hc

/-- Read on behind a line feed before the target: a carriage return directly behind it is passed. -/
def lineAnewFrom (target offset : Nat) : List Char → Nat × List Char
  | '\r' :: cs => lineAroundFrom target (offset + 1) (offset + 1) [] cs
  | cs => lineAroundFrom target offset offset [] cs

theorem lineAnewFrom_of_head? {cs : List Char} (h : cs.head? ≠ some '\r') (target offset : Nat) :
    lineAnewFrom target offset cs = lineAroundFrom target offset offset [] cs := by
  unfold lineAnewFrom
  split
  · exact absurd rfl h
  · rfl

theorem lineAroundFrom_feed {target offset : Nat} (h : offset < target) (start : Nat)
    (line cs : List Char) : lineAroundFrom target offset start line ('\n' :: cs) =
      lineAnewFrom target (offset + 1) cs := by
  by_cases hcr : cs.head? = some '\r'
  · obtain ⟨cs, rfl⟩ := List.head?_eq_some_iff.mp hcr
    rw [lineAroundFrom, if_pos h]
    rfl
  · rw [lineAnewFrom_of_head? hcr, lineAroundFrom, if_pos h]
    rintro cs' rfl
    exact hcr rfl

/-- Once the target is reached the line goes on up to the next line feed. -/
theorem lineAroundFrom_of_le {target offset : Nat} (start : Nat) (line cs : List Char)
    (h : target ≤ offset) :
    lineAroundFrom target offset start line cs = (start, line.reverse ++ firstLine cs) := by
  fun_induction lineAroundFrom target offset start line cs with
  | case1 => simp [firstLine]
  | case2 _ _ _ _ hlt | case4 _ _ _ _ _ hlt => exact absurd hlt (Nat.not_lt.mpr h)
  | case3 | case5 => simp [firstLine]
  | case6 offset start line c cs _ hc ih =>
      rw [ih (Nat.le_trans h (Nat.le_add_right _ _)), firstLine_cons hc, List.reverse_cons,
        List.append_assoc]
      rfl

/-- Without a line feed before the target the line goes on past the target. -/
theorem lineAroundFrom_of_not_mem {target offset : Nat} {rest : List Char} (h : '\n' ∉ rest)
    (htarget : offset + byteCount rest = target) (start : Nat) (line after : List Char) :
    lineAroundFrom target offset start line (rest ++ after) =
      (start, line.reverse ++ (rest ++ firstLine after)) := by
  induction rest generalizing offset line with
  | nil => exact lineAroundFrom_of_le start line after (Nat.le_of_eq htarget.symm)
  | cons c rest ih =>
      obtain ⟨hc, hrest⟩ := not_or.mp (mt List.mem_cons.mpr h)
      rw [byteCount_cons, ← Nat.add_assoc] at htarget
      rw [List.cons_append, lineAroundFrom_cons (Ne.symm hc), ih hrest htarget, List.reverse_cons,
        List.append_assoc]
      rfl

/-- What stands before a line feed before the target does not matter, in a line as well as where a
line starts. -/
theorem lineAroundFrom_append_feed (target : Nat) (pre cs : List Char) :
    (∀ offset start line, offset + byteCount pre < target →
      lineAroundFrom target offset start line (pre ++ '\n' :: cs) =
        lineAnewFrom target (offset + byteCount pre + 1) cs) ∧
    ∀ offset, offset + byteCount pre < target →
      lineAnewFrom target offset (pre ++ '\n' :: cs) =
        lineAnewFrom target (offset + byteCount pre + 1) cs := by
  have hone : Char.utf8Size '\n' = 1 ∧ Char.utf8Size '\r' = 1 := ⟨rfl, rfl⟩
  induction pre with
  | nil =>
      refine ⟨fun offset start line h => lineAroundFrom_feed h start line cs, fun offset h => ?_⟩
      exact (lineAnewFrom_of_head? (by simp) _ _).trans (lineAroundFrom_feed h offset [] cs)
  | cons c pre ih =>
      obtain ⟨hline, hanew⟩ := ih
      have hcons : ∀ offset start line, offset + byteCount (c :: pre) < target →
          lineAroundFrom target offset start line (c :: pre ++ '\n' :: cs) =
            lineAnewFrom target (offset + byteCount (c :: pre) + 1) cs := by
        intro offset start line h
        rw [byteCount_cons, ← Nat.add_assoc] at h ⊢
        by_cases hc : c = '\n'
        · subst hc
          rw [hone.1] at h ⊢
          exact (lineAroundFrom_feed (by omega) start line _).trans (hanew _ h)
        · exact (lineAroundFrom_cons hc target offset start line _).trans (hline _ _ _ h)
      refine ⟨hcons, fun offset h => ?_⟩
      by_cases hc : c = '\r'
      · subst hc
        rw [byteCount_cons, ← Nat.add_assoc, hone.2] at h ⊢
        exact hline _ _ _ h
      · exact (lineAnewFrom_of_head? (by simpa using hc) _ _).trans (hcons _ _ _ h)

theorem append_firstLine_of_head? {line after : List Char} {c : Char} (hc : c ≠ '\n')
    (h : (line ++ after).head? = some c) :
    line ++ firstLine after = c :: (line ++ firstLine after).tail := by
  cases line with
  | nil =>
      obtain ⟨after, rfl⟩ := List.head?_eq_some_iff.mp h
      rw [List.nil_append, firstLine_cons hc]
      rfl
  | cons d line =>
      obtain rfl : d = c := Option.some_inj.mp h
      rfl

/-- Without a line feed between it and the target the new line goes on past the target, but for a
carriage return that it begins with. -/
theorem lineAnewFrom_of_not_mem {target offset : Nat} {rest : List Char} (h : '\n' ∉ rest)
    (htarget : offset + byteCount rest = target) (after : List Char) :
    lineAnewFrom target offset (rest ++ after) =
      if (rest ++ after).head? = some '\r' then (offset + 1, (rest ++ firstLine after).tail)
      else (offset, rest ++ firstLine after) := by
  split
  · next hcr =>
    rcases rest with _ | ⟨c, rest⟩
    · obtain ⟨after, rfl⟩ := List.head?_eq_some_iff.mp hcr
      rw [List.nil_append, List.nil_append, firstLine_cons (by decide)]
      refine lineAroundFrom_of_le _ [] after ?_
      rw [← htarget, byteCount_nil]
      exact Nat.le_succ offset
    · obtain rfl : c = '\r' := Option.some_inj.mp hcr
      rw [byteCount_cons, ← Nat.add_assoc] at htarget
      exact lineAroundFrom_of_not_mem (fun hin => h (List.mem_cons_of_mem _ hin)) htarget _ [] after
  · next hcr =>
    rw [lineAnewFrom_of_head? hcr]
    exact lineAroundFrom_of_not_mem h htarget _ [] after

/-- The line feed that ends the last line before an offset is directly followed by a carriage
return. -/
def ReturnLed (before after : List Char) : Prop :=
  '\n' ∈ before ∧ (lastLine before ++ after).head? = some '\r'

instance (before after : List Char) : Decidable (ReturnLed before after) :=
  inferInstanceAs (Decidable (_ ∧ _))

/-- The line around an offset is all that stands around it between line feeds, but for a carriage
return directly behind the line feed before it. -/
theorem lineAround_eq (before after : List Char) :
    lineAround (before ++ after) (byteCount before) =
      if ReturnLed before after then
        (byteCount (linesBefore before) + 1, (lastLine before ++ firstLine after).tail)
      else (byteCount (linesBefore before), lastLine before ++ firstLine after) := by
  by_cases hfeed : '\n' ∈ before
  · have hled : ReturnLed before after ↔ (lastLine before ++ after).head? = some '\r' :=
      and_iff_right hfeed
    obtain ⟨lines, hlines⟩ := linesBefore_eq_concat hfeed
    have hsplit : before ++ after = lines ++ '\n' :: (lastLine before ++ after) := by
      conv_lhs => rw [← linesBefore_append_lastLine before, hlines]
      simp
    have hstart : byteCount (linesBefore before) = byteCount lines + 1 := by
      rw [hlines, byteCount_append]
      rfl
    have htarget : byteCount lines + 1 + byteCount (lastLine before) = byteCount before := by
      rw [← hstart, ← byteCount_append, linesBefore_append_lastLine]
    rw [if_congr hled rfl rfl, hstart, lineAround, hsplit,
      (lineAroundFrom_append_feed _ lines _).1 0 0 [] (by omega), Nat.zero_add]
    exact lineAnewFrom_of_not_mem (not_mem_lastLine before) htarget after
  · obtain ⟨hlines, hself⟩ := lastLine_of_not_mem hfeed
    rw [if_neg fun h => hfeed h.1, hlines, hself]
    exact lineAroundFrom_of_not_mem hfeed (Nat.zero_add _) 0 [] after

/-- The line around an offset ends at the first line feed at the offset or behind it, and it starts
no later. -/
theorem lineAround_append (before after : List Char) :
    ∃ pre, before ++ firstLine after = pre ++ (lineAround (before ++ after) (byteCount before)).2 ∧
      (lineAround (before ++ after) (byteCount before)).1 = byteCount pre := by
  have hbefore := linesBefore_append_lastLine before
  rw [lineAround_eq]
  split
  · next hled =>
    have hline := append_firstLine_of_head? (by decide) hled.2
    refine ⟨linesBefore before ++ ['\r'], ?_, (byteCount_append _ ['\r']).symm⟩
    rw [List.append_assoc, List.singleton_append, ← hline, ← List.append_assoc, hbefore]
  · exact ⟨linesBefore before, by rw [← List.append_assoc, hbefore], rfl⟩

/-! ## Locations -/

/-- The slices of a source that make a location: the offset splits the source, and the text before
it, the last line of that text and the line around it are fragments. The differences of offsets that
give the sizes of the last two are differences of a greater and a smaller one. -/
structure Location.CutAt (l : Location) (source : String) (before after : List Char) : Prop where
  split : source.toList = before ++ after
  isAfter : l.IsAfter before
  passed : (Span.mk 0 (byteCount before)).fragment? source = some (String.ofList before)
  tail_le : byteCount (lastLine before) ≤ byteCount before
  tail : (Span.mk (byteCount before - byteCount (lastLine before))
    (byteCount (lastLine before))).fragment? source = some (String.ofList (lastLine before))
  start_le : (lineAround source.toList (byteCount before)).1 ≤
    byteCount (before ++ firstLine after)
  around : ∃ line, (Span.mk (lineAround source.toList (byteCount before)).1
      (byteCount (before ++ firstLine after) -
        (lineAround source.toList (byteCount before)).1)).fragment? source =
      some (String.ofList line) ∧ l.text = String.ofList (trimReturns line)

/-- An offset between characters has a location, and all slices that make it are fragments of the
source. -/
theorem Location.of?_cutAt {source : String} {before after : List Char}
    (h : source.toList = before ++ after) :
    ∃ l, Location.of? source (byteCount before) = some l ∧ l.CutAt source before after := by
  obtain ⟨l, hl, hafter⟩ := Location.of?_byteCount h
  refine ⟨l, hl, ?_⟩
  have hpre := (linesBefore_append_lastLine before).symm
  obtain ⟨post, hpost⟩ := exists_firstLine_append after
  obtain ⟨lead, hlead, hstart⟩ := lineAround_append before after
  have hlast : byteCount before = byteCount (linesBefore before) + byteCount (lastLine before) := by
    rw [← byteCount_append, ← hpre]
  have hsize : byteCount (before ++ firstLine after) =
      byteCount lead + byteCount (lineAround (before ++ after) (byteCount before)).2 := by
    rw [hlead, byteCount_append]
  refine ⟨h, hafter, ?_, ?_, ?_, ?_, ?_⟩
  · exact Span.fragment?_of_split [] _ _ h
  · rw [hlast]
    exact Nat.le_add_left _ _
  · rw [hlast, Nat.add_sub_cancel]
    exact Span.fragment?_of_split _ _ after (by rw [← List.append_assoc, ← hpre, h])
  · rw [h, hstart, hsize]
    exact Nat.le_add_right _ _
  · refine ⟨(lineAround (before ++ after) (byteCount before)).2, ?_, ?_⟩
    · rw [h, hstart, hsize, Nat.add_sub_cancel_left]
      apply Span.fragment?_of_split _ _ post
      rw [← List.append_assoc, ← hlead, List.append_assoc, ← hpost, h]
    · obtain ⟨p, -, rfl⟩ := Option.map_eq_some_iff.mp hl
      rw [h]

end JackCompiler
