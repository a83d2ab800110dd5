import JackCompiler.Proofs.Lexis.Gaps
import JackCompiler.Proofs.Output.Constants
import JackCompiler.Proofs.Words.Programs

/-!
# Sources that words do not reach to the end of

In a source with a long comment, what stands a whole number of word ranges behind a piece of the
comment is taken from that piece. So the names and numbers of the program need not be what is written.

## Implementation notes

A walker passes the comment in one step, whatever its length. The characters of the comment are not
computed but for the pieces that spans name.
-/

namespace JackCompiler

open Production Scanner

/-! ## Walkers on whole sources -/

theorem Follows.start (cs : List Char) :
    Follows (Cursor.ofSource (.ofList cs)) (Walker.ofChars cs) where
  source := rfl
  offset := rfl
  torn := rfl
  reached := by
    change Advances ⟨0, (String.ofList cs).toList⟩ ⟨0, cs⟩
    rw [String.toList_ofList]
    exact .refl _

/-- A window on a source with a walker in it. -/
def Window.ofChars (cs : List Char) : Window Walker :=
  (Window.ofCursor (.ofList cs)).withFeed (Walker.ofChars cs)

namespace Program

/-- The class that a walker reads is the class of its source. -/
theorem parse_ofList {cs : List Char} {tree : ClassTree} {w : Window Walker}
    (h : classTree (Window.ofChars cs) = .ok tree w) :
    parse (.ofList cs) = ⟨.ok tree, w.records⟩ := by
  have hsame := follows_answersAlike.classTree (Window.ofCursor (.ofList cs)) (Follows.start cs)
  rw [show (Window.ofCursor (.ofList cs)).withFeed (Walker.ofChars cs) = Window.ofChars cs from rfl,
    h] at hsame
  unfold parse
  generalize classTree (Window.ofCursor (.ofList cs)) = r at hsame
  cases hsame with
  | ok tree v hv => rfl

/-- The tokens that a walker gives are the tokens of its source. -/
theorem tokens?_ofList {cs : List Char} {tokens : List Token × Option Complaint} {w : Walker}
    (h : drain (byteCount cs + 1) (Walker.ofChars cs) [] = (tokens, w)) (hwhole : w.torn = false) :
    tokens? (.ofList cs) = some tokens := by
  obtain ⟨hsame, hfollows⟩ := follows_answersAlike.drain (Follows.start cs) (byteCount cs + 1) []
  rw [h] at hsame hfollows
  have htorn := hfollows.torn
  unfold tokens? Cursor.tokens
  rw [show (Cursor.ofSource (.ofList cs)).source = String.ofList cs from rfl, utf8ByteSize_ofList,
    show (Cursor.ofSource (.ofList cs)).offset = 0 from rfl, Nat.sub_zero]
  dsimp only
  rw [htorn, hwhole, if_neg Bool.false_ne_true, ← hsame]

end Program

/-! ## A comment -/

/-- A character that is not in any token and takes four bytes. -/
def wideChar : Char := '𐀀'

/-- A comment that begins with a piece and goes on with wide characters, and what is written behind
it. -/
def behindComment (piece : List Char) (n : Nat) (after : List Char) : List Char :=
  '/' :: '*' :: (piece ++ List.replicate n wideChar ++ '*' :: '/' :: after)

theorem byteCount_behindComment (piece : List Char) (n : Nat) (after : List Char) :
    byteCount (behindComment piece n after) = byteCount piece + 4 * n + 4 + byteCount after := by
  have hwide : wideChar.utf8Size = 4 := rfl
  simp only [behindComment, byteCount_cons, byteCount_append, byteCount_replicate, hwide,
    show Char.utf8Size '/' = 1 from rfl, show Char.utf8Size '*' = 1 from rfl]
  omega

/-- A comment without stars is not closed by one. -/
theorem not_close_of_notMem {body : List Char} (h : '*' ∉ body) : ¬['*', '/'] <:+: body ++ ['*'] := by
  induction body with
  | nil => decide
  | cons c body ih =>
      obtain ⟨hc, hbody⟩ := not_or.mp (mt List.mem_cons.mpr h)
      rw [infix_close_cons_iff, not_or]
      exact ⟨fun hclose => hc hclose.1.symm, ih hbody⟩

theorem star_notMem_append {piece : List Char} (hpiece : '*' ∉ piece) (n : Nat) :
    '*' ∉ piece ++ List.replicate n wideChar := by
  intro hmem
  rcases List.mem_append.mp hmem with hmem | hmem
  · exact hpiece hmem
  · cases List.eq_of_mem_replicate hmem

/-- The scanner of a walker has no part in an answer that is a token. -/
theorem Walker.answer_of_ok {w w' v : Walker} {s : Scanner} {start : Nat} {shape : Shape}
    {passed : List Char} {t : Token} (h : w.answer s start shape passed = (.ok t, v))
    (hsource : w'.source = w.source) (htorn : w'.torn = w.torn) :
    w'.answer s start shape passed = (.ok t, v) := by
  unfold answer at h ⊢
  rw [hsource]
  split at h
  · rw [← h, htorn]
  · cases h

/-- A walker at the start of the comment scans the token behind it. -/
theorem Walker.next_behindComment {piece : List Char} (hpiece : '*' ∉ piece) {n : Nat}
    {after : List Char} {t : Token} {w : Walker}
    (h : Walker.next ⟨behindComment piece n after, ⟨byteCount piece + 4 * n + 4, after⟩, false⟩ =
      (.ok t, w)) : (Walker.ofChars (behindComment piece n after)).next = (.ok t, w) := by
  have hskip : skipGap .between 0 (behindComment piece n after) =
      skipGap .between (byteCount piece + 4 * n + 4) after := by
    have hclose := skipGap_blockComment (not_close_of_notMem (star_notMem_append hpiece n)) 0 2 after
    have hbytes : 2 + byteCount (piece ++ List.replicate n wideChar) + 2 =
        byteCount piece + 4 * n + 4 := by
      rw [byteCount_append, byteCount_replicate, show wideChar.utf8Size = 4 from rfl]
      omega
    rw [hbytes] at hclose
    exact hclose
  unfold Walker.next at h ⊢
  rw [show (Walker.ofChars (behindComment piece n after)).scanner =
    ⟨0, behindComment piece n after⟩ from rfl]
  dsimp only at h ⊢
  rw [hskip]
  generalize skipGap .between (byteCount piece + 4 * n + 4) after = gap at h ⊢
  obtain ⟨e | _, s⟩ := gap <;> dsimp only at h
  · exact answer_of_ok h rfl rfl
  · exact answer_of_ok h rfl rfl

/-- Behind the comment one token stands, and then the end. -/
theorem Program.tokens?_behindComment {piece : List Char} (hpiece : '*' ∉ piece) {n : Nat}
    {after : List Char} {t eof : Token} {w w' : Walker}
    (hfirst : Walker.next ⟨behindComment piece n after, ⟨byteCount piece + 4 * n + 4, after⟩, false⟩ =
      (.ok t, w)) (ht : t.kind ≠ .finish) (hlast : w.next = (.ok eof, w')) (heof : eof.kind = .finish)
    (hwhole : w'.torn = false) :
    tokens? (.ofList (behindComment piece n after)) = some ([t, eof], none) := by
  have hnext : TokenFeed.next (Walker.ofChars (behindComment piece n after)) = (.ok t, w) :=
    Walker.next_behindComment hpiece hfirst
  have hlast' : TokenFeed.next w = (.ok eof, w') := hlast
  have hbytes : byteCount (behindComment piece n after) + 1 =
      byteCount piece + 4 * n + 3 + byteCount after + 2 := by
    rw [byteCount_behindComment]
    omega
  refine tokens?_ofList ?_ hwhole
  rw [hbytes, drain, hnext]
  dsimp only
  rw [if_neg ht, drain, hlast']
  dsimp only
  rw [if_pos heof]
  rfl

theorem bind_of_eq {α β S : Type} {p : ProductionOver S α} {w w' : Window S} (h : p w = p w')
    (q : α → ProductionOver S β) : (p >>= q) w = (p >>= q) w' := by
  change EStateM.bind p q w = EStateM.bind p q w'
  rw [EStateM.bind, EStateM.bind, h]

/-- A window that has not been primed reads the same from two feeds with the same next answer. -/
theorem classTree_of_next {S : Type} [TokenFeed S] {w : Window S} {s : S} (hprimed : w.primed = false)
    (hnext : TokenFeed.next w.scanner = TokenFeed.next s) :
    classTree w = classTree { w with scanner := s } := by
  have hscan : scan w = scan { w with scanner := s } := by
    unfold scan
    rw [hnext]
  have hslide : slide w = slide { w with scanner := s } := by
    unfold slide
    rw [get_if_neg (by simp [hprimed]), get_if_neg (by simp [hprimed])]
    exact bind_of_eq hscan _
  unfold classTree
  rw [get_if_pos (by simp [hprimed]), get_if_pos (by simp [hprimed])]
  exact bind_of_eq hslide _

/-! ## A listing that is read differently -/

/-- A class with one function, whose name has sixteen characters. -/
def maskedChars : List Char :=
  "class A\x7bfunction void cccccccccccccccc()\x7breturn;\x7d\x7d".toList

/-- As many bytes, with a line break in the place of that name. -/
def maskChars : List Char :=
  "class A\x7bfunction void a 0\nfunction A.b()\x7breturn;\x7d\x7d".toList

/-- The class behind a comment that begins with those bytes. The comment is so long that the class
begins a word range behind them. -/
def wrappedChars : List Char :=
  behindComment maskChars 1073741811 maskedChars

/-- Those characters as a source. -/
def wrappedSource : String :=
  .ofList wrappedChars

/-- A window on that source, with a walker behind the comment. -/
def wrappedWindow : Window Walker where
  size := 4294967348
  scanner := ⟨wrappedChars, ⟨4294967298, maskedChars⟩, false⟩
  previous := none
  current := .finish 52
  lookahead := .finish 52
  primed := false
  journal := []

theorem classTree_wrapped : classTree (Window.ofChars wrappedChars) = classTree wrappedWindow := by
  have hstar : '*' ∉ maskChars := by decide +kernel
  have hpiece : byteCount maskChars = 50 := by decide +kernel
  have hbytes : byteCount wrappedChars = 4294967348 := by
    rw [wrappedChars, byteCount_behindComment, hpiece,
      show byteCount maskedChars = 50 by decide +kernel]
  have hfirst : wrappedWindow.scanner.next =
      (.ok ⟨.keyword .classDecl, "class", ⟨2, 5⟩⟩, wrappedWindow.scanner.next.2) :=
    Prod.ext (by decide +kernel) rfl
  have hnext : (Walker.ofChars wrappedChars).next = wrappedWindow.scanner.next := by
    rw [hfirst]
    refine Walker.next_behindComment hstar ?_
    rw [hpiece]
    exact hfirst
  have hwindow : Window.ofChars wrappedChars =
      { wrappedWindow with scanner := Walker.ofChars wrappedChars } := by
    rw [Window.ofChars, Window.ofCursor, utf8ByteSize_ofList, hbytes]
    rfl
  rw [hwindow]
  exact classTree_of_next rfl hnext

/-- The class that is read of that source: its one subroutine compiles to three instructions, and the
listing of these has four lines. -/
structure IsWrappedClass (tree : ClassTree) (records : List Record) : Prop where
  alone : tree.subroutines.length = 1
  unwritten : records.filterMap Record.instruction? = []
  compiles : (tree.output .standard).fault = none
  instructions : (tree.output .standard).items.length = 3
  lists : listing (tree.output .standard).items =
    "function A.a 0\nfunction A.b 0\npush constant 0\nreturn\n"

theorem wrappedSource_parse : ∃ tree records, Program.parse wrappedSource = ⟨.ok tree, records⟩ ∧
    IsWrappedClass tree records := by
  have hread : (match classTree wrappedWindow with
      | .ok tree w => decide (tree.subroutines.length = 1 ∧
          w.records.filterMap Record.instruction? = [] ∧
          (tree.output .standard).fault = none ∧ (tree.output .standard).items.length = 3 ∧
          listing (tree.output .standard).items =
            "function A.a 0\nfunction A.b 0\npush constant 0\nreturn\n")
      | .error _ _ => false) = true := by
    decide +kernel
  rcases hclass : classTree wrappedWindow with ⟨tree, w⟩ | ⟨e, w⟩ <;> rw [hclass] at hread
  · obtain ⟨halone, hunwritten, hcompiles, hinstructions, hlists⟩ := of_decide_eq_true hread
    exact ⟨tree, w.records, Program.parse_ofList (classTree_wrapped.trans hclass),
      halone, hunwritten, hcompiles, hinstructions, hlists⟩
  · cases hread

end JackCompiler
