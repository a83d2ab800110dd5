import JackCompiler.Compiler
import JackCompiler.Proofs.Syntax.Sources

/-!
# Writing a token table

A token table is one text: the header, and a row for each token of the source. Written row by row to
a sink it leaves there what this text leaves when it is written as a whole, and the outcome is that
the sink was full if it did not take all of the text, and otherwise the complaint about the source.

## Implementation notes

A sink that is full takes nothing more, so a text in parts is cut where the whole is cut.
-/

namespace JackCompiler

/-- The token table of a source. -/
def tableOf (source : String) : String :=
  tableHeader ++ String.join ((tokensOf source).map Token.row)

/-- The outcome of listing the tokens of a source where there is room for all of them. -/
def tableOutcome (source : String) : Except Failure Unit :=
  match faultOf? source with
  | none => .ok ()
  | some c => .error (c.failure source)

namespace TextSink

/-- A text is written as its parts are, one after the other, unless the first does not fit. -/
theorem write_append (s : TextSink) (a b : String) :
    s.write (a ++ b) = match s.write a with
      | (true, s) => s.write b
      | (false, s) => (false, s) := by
  obtain ⟨_ | room, content⟩ := s
  · simp only [write, String.append_assoc]
  · simp only [write, String.length_append]
    by_cases ha : a.length ≤ room
    · simp only [if_pos ha]
      have htake : (a ++ b).toList.take room = a.toList ++ b.toList.take (room - a.length) := by
        rw [String.toList_append, List.take_append, String.length_toList,
          List.take_of_length_le (by rwa [String.length_toList])]
      by_cases hb : b.length ≤ room - a.length
      · rw [if_pos hb, if_pos (by omega), Nat.sub_sub, String.append_assoc]
      · rw [if_neg hb, if_neg (by omega), htake, String.ofList_append, String.ofList_toList,
          String.append_assoc]
    · have htake : (a ++ b).toList.take room = a.toList.take room := by
        have hshort : room ≤ a.toList.length := by
          rw [String.length_toList]
          omega
        rw [String.toList_append, List.take_append_of_le_length hshort]
      rw [if_neg ha, if_neg (by omega), htake]

theorem write_empty (s : TextSink) : s.write "" = (true, s) := by
  obtain ⟨_ | room, content⟩ := s
  · simp [write]
  · simp [write]

/-- A limited sink takes the first characters of a text, as many as there is room for. -/
theorem write_limited (room : Nat) (content text : String) :
    ((TextSink.mk (some room) content).write text).1 = decide (text.length ≤ room) ∧
      ((TextSink.mk (some room) content).write text).2.content =
        content ++ String.ofList (text.toList.take room) := by
  by_cases h : text.length ≤ room
  · have htake : text.toList.take room = text.toList :=
      List.take_of_length_le (by rwa [String.length_toList])
    simp [write, h, htake]
  · simp [write, h]

end TextSink

/-- Rows are written as one text. -/
theorem writeRows_eq (fault : Option Complaint) (ts : List Token) (sink : TextSink)
    (begun : List Token) :
    ((writeRows fault ts sink begun).sink, (writeRows fault ts sink begun).fault) =
      match sink.write (String.join (ts.map Token.row)) with
      | (true, s) => (s, fault.map .complaint)
      | (false, s) => (s, some .full) := by
  induction ts generalizing sink begun with
  | nil =>
      rw [List.map_nil, String.join_nil, TextSink.write_empty]
      rfl
  | cons t ts ih =>
      rw [List.map_cons, String.join_cons, TextSink.write_append, writeRows]
      rcases sink.write t.row with ⟨_ | _, sink'⟩
      · rfl
      · exact ih sink' (t :: begun)

/-- A table is written as one text. -/
theorem tokenTable_eq (source : String) (sink : TextSink) :
    ((tokenTable source sink).1.outcome, (tokenTable source sink).2) =
      match sink.write (tableOf source) with
      | (true, s) => (tableOutcome source, s)
      | (false, s) => (.error .tableFull, s) := by
  have htable : ((writeTable source sink).sink, (writeTable source sink).fault) =
      match sink.write (tableOf source) with
      | (true, s) => (s, (faultOf? source).map .complaint)
      | (false, s) => (s, some .full) := by
    rw [tableOf, TextSink.write_append, writeTable, writeTokens]
    rcases sink.write tableHeader with ⟨_ | _, sink'⟩
    · rfl
    · exact writeRows_eq (faultOf? source) (tokensOf source) sink' []
  rw [tokenTable, TableReport.report, tableOutcome]
  rcases hwrite : sink.write (tableOf source) with ⟨_ | _, s⟩
  · rw [hwrite] at htable
    obtain ⟨hsink, hfault⟩ := Prod.mk.inj htable
    simp only [hsink, hfault]
  · rw [hwrite] at htable
    obtain ⟨hsink, hfault⟩ := Prod.mk.inj htable
    cases hcomplaint : faultOf? source with
    | none => simp only [hsink, hfault, hcomplaint, Option.map_none]
    | some c => simp only [hsink, hfault, hcomplaint, Option.map_some]

/-- A sink that is not limited has all of the table in the end. -/
theorem tokenTable_unlimited (source content : String) :
    (tokenTable source ⟨none, content⟩).1.outcome = tableOutcome source ∧
      (tokenTable source ⟨none, content⟩).2.content = content ++ tableOf source := by
  obtain ⟨houtcome, hsink⟩ := Prod.mk.inj (tokenTable_eq source ⟨none, content⟩)
  exact ⟨houtcome, congrArg TextSink.content hsink⟩

/-- A limited sink has the first characters of the table in the end, and it is full exactly if the
table is longer. -/
theorem tokenTable_limited (source content : String) (room : Nat) :
    (tokenTable source ⟨some room, content⟩).1.outcome =
        (if (tableOf source).length ≤ room then tableOutcome source else .error .tableFull) ∧
      (tokenTable source ⟨some room, content⟩).2.content =
        content ++ String.ofList ((tableOf source).toList.take room) := by
  have htable := tokenTable_eq source ⟨some room, content⟩
  obtain ⟨hfits, hcontent⟩ := TextSink.write_limited room content (tableOf source)
  rcases hwrite : (TextSink.mk (some room) content).write (tableOf source) with ⟨fitted, s⟩
  rw [hwrite] at htable hfits hcontent
  dsimp only at hfits hcontent
  rw [← hcontent]
  by_cases h : (tableOf source).length ≤ room
  · obtain rfl : fitted = true := by simpa [h] using hfits
    obtain ⟨houtcome, hsink⟩ := Prod.mk.inj htable
    exact ⟨by rw [houtcome, if_pos h], congrArg TextSink.content hsink⟩
  · obtain rfl : fitted = false := by simpa [h] using hfits
    obtain ⟨houtcome, hsink⟩ := Prod.mk.inj htable
    exact ⟨by rw [houtcome, if_neg h], congrArg TextSink.content hsink⟩

end JackCompiler
