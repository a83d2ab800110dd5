import JackCompiler.Program
import JackCompiler.Proofs.Lexis.Decomposition
import JackCompiler.Proofs.Words.Reach

/-!
# The program in reach

Where words reach to the end of a source, the program reads, compiles and lists what is described with
offsets of any size. Everything that is shown of the compiler is then shown of the program.
-/

namespace JackCompiler

open Scanner

/-- A cursor is where a scanner is in a source, and whole. -/
def Abreast (source : String) (c : Cursor) (s : Scanner) : Prop :=
  ∃ w, Follows c w ∧ InReach source.toList w s

theorem abreast_answersAlike {source : String} (hsize : byteCount source.toList ≤ maxOffset) :
    TokenFeed.AnswersAlike (Abreast source) :=
  follows_answersAlike.trans (inReach_answersAlike hsize)

namespace Abreast

variable {source : String} {c : Cursor} {s : Scanner}

theorem start (source : String) : Abreast source (.ofSource source) (.ofSource source) :=
  ⟨⟨source.toList, Scanner.ofSource source, false⟩,
    ⟨String.ofList_toList.symm, rfl, rfl, .refl _⟩, rfl, .refl _⟩

theorem source_eq (h : Abreast source c s) : c.source = source := by
  obtain ⟨w, hfollows, rfl, -⟩ := h
  exact hfollows.source.trans String.ofList_toList

theorem torn_eq (h : Abreast source c s) : c.torn = false := by
  obtain ⟨w, hfollows, rfl, -⟩ := h
  exact hfollows.torn

theorem failure_eq (h : Abreast source c s) (e : Complaint) : c.failure e = e.failure source := by
  rw [Cursor.failure, h.torn_eq, h.source_eq]
  rfl

end Abreast

theorem Scanner.drain_eq (n : Nat) (s : Scanner) (tokens : List Token) :
    (drain n s tokens).1 = tokensWithin n s tokens := by
  induction n generalizing s tokens with
  | zero => rfl
  | succ n ih =>
      rw [drain, tokensWithin, TokenFeed.next_scanner]
      obtain ⟨e | t, s'⟩ := s.next
      · rfl
      · dsimp only
        split
        · rfl
        · exact ih s' _

/-- A scanner that is drained gives the tokens of its source. -/
theorem drain_ofSource {source : String} {n : Nat} (hn : source.toList.length < n) :
    (drain n (Scanner.ofSource source) []).1 = (tokensOf source, faultOf? source) := by
  obtain ⟨ts, e, heq, hscans⟩ := tokensWithin_scans (s := Scanner.ofSource source) [] hn
  obtain ⟨rfl, rfl⟩ := hscans.unique (tokensOf_scans source)
  rw [drain_eq, heq, List.reverse_nil, List.nil_append]

section

variable {source : String} (hsize : byteCount source.toList ≤ maxOffset)
include hsize

theorem Window.ofSource_eq_withFeed :
    Window.ofSource source = (Window.ofCursor source).withFeed (Scanner.ofSource source) := by
  have hbytes := utf8ByteSize_eq source
  rw [ofSource, Window.withFeed, ofCursor, hbytes, wordOf_of_le hsize]

namespace Program

theorem parse_of_le : parse source = JackCompiler.parse source := by
  have hsame := (abreast_answersAlike hsize).classTree (Window.ofCursor source) (Abreast.start source)
  unfold parse JackCompiler.parse readClass
  rw [Window.ofSource_eq_withFeed hsize]
  generalize classTree (Window.ofCursor source) = r at hsame ⊢
  generalize classTree ((Window.ofCursor source).withFeed (Scanner.ofSource source)) = r' at hsame ⊢
  cases hsame with
  | ok tree w h => rfl
  | error e w h => exact congrArg (fun f => Report.mk (.error f) w.records) (h.failure_eq e)

theorem compile_of_le (options : Options) :
    compile options source = JackCompiler.compile options source := by
  rw [compile, parse_of_le hsize, JackCompiler.compile]

theorem compileInto_of_le (options : Options) (sink : Sink) :
    compileInto options source sink = JackCompiler.compileInto options source sink := by
  rw [compileInto, parse_of_le hsize, JackCompiler.compileInto]

/-- A cursor that is drained gives the tokens of its source and is whole. -/
theorem tokens_of_le : ∃ c s,
    (Cursor.ofSource source).tokens = ((tokensOf source, faultOf? source), c) ∧
      Abreast source c s := by
  have hlength := length_le_byteCount source.toList
  have hn : source.toList.length < source.utf8ByteSize - 0 + 1 := by
    rw [utf8ByteSize_eq]
    omega
  obtain ⟨hsame, habreast⟩ := (abreast_answersAlike hsize).drain (Abreast.start source)
    (source.utf8ByteSize - 0 + 1) []
  rw [drain_ofSource hn] at hsame
  exact ⟨_, _, Prod.ext hsame.symm rfl, habreast⟩

theorem tokens?_of_le : tokens? source = some (tokensOf source, faultOf? source) := by
  obtain ⟨c, s, heq, habreast⟩ := tokens_of_le hsize
  rw [tokens?, heq]
  dsimp only
  rw [habreast.torn_eq, if_neg Bool.false_ne_true]

theorem tokenTable_of_le (sink : TextSink) :
    tokenTable source sink = JackCompiler.tokenTable source sink := by
  obtain ⟨c, s, heq, habreast⟩ := tokens_of_le hsize
  have hfailure : c.failure = (Complaint.failure · source) := funext habreast.failure_eq
  rw [tokenTable, heq]
  dsimp only
  rw [hfailure]
  rfl

end Program

end

end JackCompiler
