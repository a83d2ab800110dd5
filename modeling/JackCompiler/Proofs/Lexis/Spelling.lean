import JackCompiler.Proofs.Lexis.Decomposition
import JackCompiler.Proofs.Words.Beyond

/-!
# Writing tokens out

Scanning undoes writing tokens out. Lexemes may stand side by side where neither of them goes on in
the other, and separators of blanks and comments may stand between them, before the first and behind
the last: the tokens that are scanned are the lexemes, each of the kind that it has alone and at its
place, and then the end.

## Implementation notes

What is allowed between two lexemes is said of the lexemes and of the pieces of the separator, not of
the text that they make. `Lexeme.EndsBefore` is what the text has to satisfy.
-/

namespace JackCompiler

/-! ## Lexemes -/

/-- A word: it has digits only, or it does not begin with one. -/
structure Word where
  chars : List Char
  ne_nil : chars ≠ []
  inside : ∀ c ∈ chars, isWordChar c = true
  shape : (∀ c ∈ chars, c.isDigit = true) ∨ ∀ c ∈ chars.head?, c.isDigit = false

/-- What stands between the quotes of a string constant. -/
structure Contents where
  chars : List Char
  inside : ∀ c ∈ chars, c ≠ '"' ∧ c ≠ '\r' ∧ c ≠ '\n'

/-- What is written as one token. -/
inductive Lexeme where
  | symbol (s : Symbol)
  | word (w : Word)
  | text (contents : Contents)

/-- The kind of a word. -/
def Word.kind (w : Word) : Kind :=
  if w.chars.all Char.isDigit then .number
  else match Keyword.ofText? (.ofList w.chars) with
    | some k => .keyword k
    | none => .identifier

namespace Lexeme

/-- The characters of a lexeme. -/
def chars : Lexeme → List Char
  | symbol s => [s.char]
  | word w => w.chars
  | text contents => '"' :: (contents.chars ++ ['"'])

/-- The kind that a lexeme has alone. -/
def kind : Lexeme → Kind
  | symbol s => .symbol s
  | word w => w.kind
  | text _ => .text

/-- Two lexemes can stand side by side: they are not both words, and they do not open a comment. -/
def Joins : Lexeme → Lexeme → Prop
  | word _, word _ => False
  | symbol .slash, symbol s => s ≠ .slash ∧ s ≠ .star
  | _, _ => True

/-- The first character of a text does not go on with a lexeme before it. -/
def EndsBefore (after : List Char) : Lexeme → Prop
  | word _ => ∀ c ∈ after.head?, isWordChar c = false
  | symbol s => s = .slash → ∀ c ∈ after.head?, c ≠ '/' ∧ c ≠ '*'
  | text _ => True

end Lexeme

/-! ## Separators -/

/-- A piece of a separator: a blank, a line comment with the line break behind it, or a block
comment. -/
inductive Trivia where
  | blank (c : Char) (h : isBlank c = true)
  | lineComment (body : List Char) (stop : Char) (hbody : ∀ c ∈ body, isLineBreak c = false)
      (hstop : isLineBreak stop = true)
  | blockComment (body : List Char) (hbody : ¬['*', '/'] <:+: body)

namespace Trivia

/-- The characters of a piece of a separator. -/
def chars : Trivia → List Char
  | blank c _ => [c]
  | lineComment body stop _ _ => '/' :: '/' :: (body ++ [stop])
  | blockComment body _ => '/' :: '*' :: (body ++ ['*', '/'])

/-- A piece of a separator is a blank. -/
def IsBlank : Trivia → Prop
  | blank _ _ => True
  | _ => False

end Trivia

/-- What stands between two lexemes. -/
abbrev Separator := List Trivia

namespace Separator

/-- The characters of a separator. -/
def chars (sep : Separator) : List Char :=
  sep.flatMap Trivia.chars

/-- A separator begins with a blank, if it is not empty. -/
def StartsBlank (sep : Separator) : Prop :=
  ∀ t ∈ sep.head?, t.IsBlank

/-- A separator keeps two lexemes apart: none of its comments is taken for more of a slash before
it, and where it is empty the lexemes can stand side by side. -/
structure Between (sep : Separator) (l m : Lexeme) : Prop where
  startsBlank : l = .symbol .slash → sep.StartsBlank
  joins : sep = [] → l.Joins m

end Separator

/-! ## Texts -/

/-- The characters of a line comment that the end of a source ends. -/
abbrev OpenComment := { body : List Char // ∀ c ∈ body, isLineBreak c = false }

/-- Lexemes written out: each behind a separator, then a last separator, and a line comment up to
the end if there is one. -/
structure Spelling where
  parts : List (Separator × Lexeme)
  last : Separator
  comment : Option OpenComment

/-- The characters of lexemes and of the separators before them. -/
def partsChars (parts : List (Separator × Lexeme)) : List Char :=
  parts.flatMap fun p => p.1.chars ++ p.2.chars

/-- The tokens of lexemes behind a text, and then of the end behind a last piece. -/
def tokensBehind (ending : List Char) : List Char → List (Separator × Lexeme) → List Token
  | before, [] => [.finish (byteCount (before ++ ending))]
  | before, (sep, l) :: parts =>
      .behind (before ++ sep.chars) l.kind l.chars ::
        tokensBehind ending (before ++ (sep.chars ++ l.chars)) parts

namespace Spelling

/-- The characters behind the last lexeme. -/
def ending (w : Spelling) : List Char :=
  w.last.chars ++ (w.comment.map fun body => '/' :: '/' :: body.val).getD []

/-- The source that is written. -/
def source (w : Spelling) : String :=
  .ofList (partsChars w.parts ++ w.ending)

/-- The lexemes as tokens at their places, and the end. -/
def tokens (w : Spelling) : List Token :=
  tokensBehind w.ending [] w.parts

/-- What stands behind a last lexeme is kept apart from it. -/
structure EndsApart (w : Spelling) (l : Lexeme) : Prop where
  startsBlank : l = .symbol .slash → w.last.StartsBlank
  noComment : l = .symbol .slash → w.last = [] → w.comment = none

/-- Behind a lexeme, if there is one, all that is written is kept apart. -/
def SeparatedAfter (w : Spelling) : Option Lexeme → List (Separator × Lexeme) → Prop
  | previous, [] => ∀ l ∈ previous, w.EndsApart l
  | previous, (sep, m) :: parts => (∀ l ∈ previous, sep.Between l m) ∧ w.SeparatedAfter (some m) parts

/-- All neighbours are kept apart. -/
def Separated (w : Spelling) : Prop :=
  w.SeparatedAfter none w.parts

end Spelling

/-! ## Separators are gaps -/

theorem close_infix_of_append_star {body : List Char} (h : ['*', '/'] <:+: body ++ ['*']) :
    ['*', '/'] <:+: body := by
  induction body with
  | nil => exact absurd h (by decide)
  | cons c body ih =>
      rw [infix_close_cons_iff] at h
      obtain ⟨rfl, hhead⟩ | h := h
      · obtain ⟨rest, rfl⟩ := List.head?_eq_some_iff.mp hhead
        exact ⟨[], rest, rfl⟩
      · exact List.infix_cons (ih h)

/-- A piece of a separator before a gap makes a longer gap. -/
theorem Trivia.isGap (t : Trivia) {gap after : List Char} (h : IsGap gap after) :
    IsGap (t.chars ++ gap) after := by
  cases t with
  | blank c hc => exact .blank hc h
  | lineComment body stop hbody hstop =>
      have hgap : IsGap (stop :: gap) after := .blank (isBlank_of_isLineBreak hstop) h
      have hline : IsGap ('/' :: '/' :: (body ++ (stop :: gap))) after :=
        .lineComment hbody (by simpa using hstop) hgap
      simpa [chars] using hline
  | blockComment body hbody =>
      have hblock : IsGap ('/' :: '*' :: (body ++ '*' :: '/' :: gap)) after :=
        .blockComment (mt close_infix_of_append_star hbody) h
      simpa [chars] using hblock

theorem Separator.isGap_append (sep : Separator) {gap after : List Char} (h : IsGap gap after) :
    IsGap (sep.chars ++ gap) after := by
  induction sep with
  | nil => exact h
  | cons t sep ih =>
      rw [chars, List.flatMap_cons, List.append_assoc]
      exact t.isGap ih

theorem Separator.isGap (sep : Separator) (after : List Char) : IsGap sep.chars after := by
  have hnil : IsGap [] after := .nil
  simpa using sep.isGap_append hnil

theorem Spelling.isGap_ending (w : Spelling) : IsGap w.ending [] := by
  refine w.last.isGap_append ?_
  cases w.comment with
  | none => exact .nil
  | some body =>
      have hline : IsGap ('/' :: '/' :: (body.val ++ [])) [] :=
        .lineComment body.property (by simp) .nil
      simpa using hline

/-! ## Lexemes are tokens -/

theorem Symbol.char_eq_star_iff {s : Symbol} : s.char = '*' ↔ s = .star := by
  cases s <;> decide

/-- A lexeme is a token where no word goes on into it and nothing goes on with it. -/
theorem Lexeme.isLexeme (l : Lexeme) {before after : List Char}
    (hbefore : Apart before (l.chars ++ after)) (hafter : l.EndsBefore after) :
    IsLexeme before after l.kind l.chars := by
  cases l with
  | symbol s => exact .symbol hafter
  | text contents => exact .text contents.inside
  | word w =>
      have hword : IsWord before after w.chars := by
        refine ⟨w.ne_nil, w.inside, fun c hc => ?_, hafter⟩
        obtain ⟨d, cs, hcs⟩ := List.exists_cons_of_ne_nil w.ne_nil
        refine hbefore c hc d ?_ (w.inside d (by simp [hcs]))
        rw [chars, hcs]
        rfl
      rw [kind, Word.kind]
      split
      · next hdigits => exact .number hword (List.all_eq_true.mp hdigits)
      · next hdigits =>
        have hhead : ∀ c ∈ w.chars.head?, c.isDigit = false :=
          w.shape.resolve_left (mt List.all_eq_true.mpr hdigits)
        split
        · next k hk =>
          rw [Keyword.ofText?_eq_some_iff] at hk
          exact .keyword hword (by rw [hk, String.toList_ofList, chars])
        · next hnone =>
          rw [Keyword.ofText?_eq_none_iff] at hnone
          refine .identifier hword hhead fun k hk => hnone k ?_
          rw [← String.ofList_toList (s := k.text), ← hk, chars]

theorem Lexeme.Joins.endsBefore {l m : Lexeme} (h : l.Joins m) (after : List Char) :
    l.EndsBefore (m.chars ++ after) := by
  cases l with
  | text => trivial
  | word w =>
      cases m with
      | word => exact h.elim
      | symbol s => simpa [EndsBefore, chars] using s.isWordChar_char
      | text => simpa [EndsBefore, chars] using (by decide : isWordChar '"' = false)
  | symbol s =>
      rintro rfl
      cases m with
      | symbol s =>
          have hs : s ≠ .slash ∧ s ≠ .star := h
          simpa [chars, Symbol.char_eq_slash_iff, Symbol.char_eq_star_iff] using hs
      | text => simp [chars]
      | word w =>
          obtain ⟨c, cs, hcs⟩ := List.exists_cons_of_ne_nil w.ne_nil
          have hc := w.inside c (by simp [hcs])
          simp only [chars, hcs, List.cons_append, List.head?_cons, Option.mem_some_iff, forall_eq']
          constructor <;>
          · rintro rfl
            cases hc

/-- A separator begins with a blank or with a slash. -/
theorem Trivia.exists_cons (t : Trivia) : ∃ c cs, t.chars = c :: cs ∧ isWordChar c = false ∧
    (t.IsBlank → c ≠ '/' ∧ c ≠ '*') := by
  cases t with
  | blank c hc =>
      refine ⟨c, [], rfl, isWordChar_of_isBlank hc, fun _ => ?_⟩
      constructor <;>
      · rintro rfl
        cases hc
  | lineComment => exact ⟨'/', _, rfl, by decide, False.elim⟩
  | blockComment => exact ⟨'/', _, rfl, by decide, False.elim⟩

/-- Nothing in a separator goes on with a lexeme before it. -/
theorem Separator.endsBefore {sep : Separator} {l : Lexeme} (hne : sep ≠ [])
    (h : l = .symbol .slash → sep.StartsBlank) (after : List Char) :
    l.EndsBefore (sep.chars ++ after) := by
  obtain ⟨t, sep, rfl⟩ := List.exists_cons_of_ne_nil hne
  obtain ⟨c, cs, hcs, hword, hblank⟩ := t.exists_cons
  have hsplit : Separator.chars (t :: sep) ++ after = c :: (cs ++ (Separator.chars sep ++ after)) := by
    simp [Separator.chars, hcs]
  rw [hsplit]
  cases l with
  | text => trivial
  | word w => simpa [Lexeme.EndsBefore] using hword
  | symbol s =>
      rintro rfl
      simpa using hblank (h rfl t rfl)

theorem Separator.Between.endsBefore {sep : Separator} {l m : Lexeme} (h : sep.Between l m)
    (after : List Char) : l.EndsBefore (sep.chars ++ (m.chars ++ after)) := by
  by_cases hsep : sep = []
  · subst hsep
    exact (h.joins rfl).endsBefore after
  · exact Separator.endsBefore hsep h.startsBlank _

namespace Spelling

variable {w : Spelling}

theorem EndsApart.endsBefore {l : Lexeme} (h : w.EndsApart l) : l.EndsBefore w.ending := by
  by_cases hlast : w.last = []
  · cases l with
    | text => trivial
    | word => cases hcomment : w.comment <;> simp [Lexeme.EndsBefore, ending, hlast, hcomment,
        Separator.chars, isWordChar]
    | symbol s =>
        rintro rfl
        simp [ending, hlast, h.noComment rfl hlast, Separator.chars]
  · exact Separator.endsBefore hlast h.startsBlank _

/-- What is written behind a lexeme does not go on with it. -/
theorem SeparatedAfter.endsBefore {l : Lexeme} {parts : List (Separator × Lexeme)}
    (h : w.SeparatedAfter (some l) parts) : l.EndsBefore (partsChars parts ++ w.ending) := by
  cases parts with
  | nil => exact (h l rfl).endsBefore
  | cons p parts =>
      have hbetween := (h.1 l rfl).endsBefore (partsChars parts ++ w.ending)
      simpa [partsChars] using hbetween

/-- What is written behind a text decomposes into its lexemes and separators. -/
theorem SeparatedAfter.decomposes {previous : Option Lexeme} {parts : List (Separator × Lexeme)}
    (h : w.SeparatedAfter previous parts) {before : List Char}
    (hbefore : Apart before (partsChars parts ++ w.ending)) :
    Decomposes before (partsChars parts ++ w.ending) (tokensBehind w.ending before parts) := by
  induction parts generalizing previous before with
  | nil => exact .finish w.isGap_ending
  | cons p parts ih =>
      obtain ⟨sep, l⟩ := p
      have hsplit : partsChars ((sep, l) :: parts) ++ w.ending =
          sep.chars ++ (l.chars ++ (partsChars parts ++ w.ending)) := by
        simp [partsChars]
      rw [hsplit] at hbefore ⊢
      have hgap := sep.isGap (l.chars ++ (partsChars parts ++ w.ending))
      have hlex := l.isLexeme (hbefore.append hgap.apart) h.2.endsBefore
      exact .token hgap hlex (ih h.2 (hbefore.behind hgap hlex))

/-- A lexeme alone. -/
def single (l : Lexeme) : Spelling :=
  ⟨[([], l)], [], none⟩

theorem single_separated (l : Lexeme) : (single l).Separated := by
  refine ⟨by simp, fun m _ => ⟨fun _ t ht => ?_, fun _ _ => rfl⟩⟩
  cases ht

/-- Scanning undoes writing out. -/
theorem Separated.scanned (h : w.Separated) :
    tokensOf w.source = w.tokens ∧ faultOf? w.source = none := by
  rw [← decomposes_iff, source, String.toList_ofList]
  exact SeparatedAfter.decomposes h .nil

end Spelling

/-- Lexemes that are written out with neighbours kept apart, so that words reach to the end, are
scanned as they are: each as a token of the kind that it has alone, at its place, and then the end,
without a complaint. -/
theorem Program.tokens_spelling (w : Spelling) (h : w.Separated)
    (hsize : byteCount w.source.toList ≤ maxOffset) :
    Program.tokens? w.source = some (w.tokens, none) ∧
      ∀ l : Lexeme, byteCount l.chars ≤ maxOffset → Program.tokens? (.ofList l.chars) =
        some ([.behind [] l.kind l.chars, .finish (byteCount l.chars)], none) := by
  obtain ⟨htokens, hfault⟩ := h.scanned
  refine ⟨by rw [tokens?_of_le hsize, htokens, hfault], fun l hl => ?_⟩
  obtain ⟨halone, hwhole⟩ := (Spelling.single_separated l).scanned
  have hsource : (Spelling.single l).source = .ofList l.chars := by
    simp [Spelling.source, Spelling.single, Spelling.ending, partsChars, Separator.chars]
  have htwo : (Spelling.single l).tokens =
      [.behind [] l.kind l.chars, .finish (byteCount l.chars)] := by
    simp [Spelling.tokens, Spelling.single, Spelling.ending, tokensBehind, Separator.chars]
  rw [← hsource, tokens?_of_le (by rwa [hsource, String.toList_ofList]), halone, hwhole, htwo]

/-- Lexemes with as little between them as there can be, and with a comment up to the end. -/
def crampedSpelling : Spelling :=
  { parts := [
      ([.blockComment [] (by decide)],
        .word ⟨['x'], nofun, by simp [isWordChar], .inr (by simp)⟩),
      ([], .symbol .slash),
      ([.blank ' ' rfl, .lineComment ['y'] '\r' (by simp [isLineBreak]) rfl], .symbol .slash),
      ([], .text ⟨['/', '/'], by simp⟩),
      ([], .word ⟨['1', '2'], nofun, by simp [isWordChar], .inl (by simp)⟩),
      ([.blank ' ' rfl], .word ⟨['i', 'f'], nofun, by simp [isWordChar], .inr (by simp)⟩)]
    last := []
    comment := some ⟨[], nofun⟩ }

theorem crampedSpelling_scanned : crampedSpelling.source = "/**/x/ //y\r/\"//\"12 if//" ∧
    crampedSpelling.Separated ∧ byteCount crampedSpelling.source.toList ≤ maxOffset ∧
    Program.tokens? crampedSpelling.source =
      some ([⟨.identifier, "x", ⟨4, 1⟩⟩, ⟨.symbol .slash, "/", ⟨5, 1⟩⟩,
        ⟨.symbol .slash, "/", ⟨11, 1⟩⟩, ⟨.text, "\"//\"", ⟨12, 4⟩⟩, ⟨.number, "12", ⟨16, 2⟩⟩,
        ⟨.keyword .ifStmt, "if", ⟨19, 2⟩⟩, .finish 23], none) := by
  have hseparated : crampedSpelling.Separated := by
    simp only [Spelling.Separated, Spelling.SeparatedAfter, crampedSpelling, Option.mem_some_iff,
      forall_eq']
    refine ⟨nofun, ⟨nofun, fun _ => trivial⟩, ⟨fun _ t ht => ?_, nofun⟩, ⟨nofun, fun _ => trivial⟩,
      ⟨nofun, fun _ => trivial⟩, ⟨nofun, nofun⟩, ⟨nofun, nofun⟩⟩
    cases ht
    trivial
  have hsize : byteCount crampedSpelling.source.toList ≤ maxOffset := by decide
  have hscanned := (Program.tokens_spelling crampedSpelling hseparated hsize).1
  exact ⟨by decide, hseparated, hsize, hscanned.trans (by decide)⟩

/-- A word behind a comment of digits and wide characters. -/
def maskedSpelling (n : Nat) : Spelling where
  parts := [([.blockComment (['7', '7'] ++ List.replicate n wideChar) fun h =>
      not_close_of_notMem (star_notMem_append (by decide) n)
        (h.trans (List.prefix_append _ _).isInfix)],
    .word ⟨['a'], nofun, by simp [isWordChar], .inr (by simp)⟩)]
  last := []
  comment := none

theorem maskedSpelling_separated (n : Nat) : (maskedSpelling n).Separated := by
  refine ⟨nofun, fun l hl => ?_⟩
  obtain rfl := Option.some_inj.mp hl
  exact ⟨nofun, nofun⟩

theorem maskedSpelling_source (n : Nat) :
    (maskedSpelling n).source = .ofList (behindComment ['7', '7'] n ['a']) := by
  simp [maskedSpelling, Spelling.source, Spelling.ending, partsChars, Separator.chars,
    Trivia.chars, Lexeme.chars, behindComment]

theorem maskedSpelling_kinds (n : Nat) :
    (maskedSpelling n).tokens.map (·.kind) = [.identifier, .finish] :=
  rfl

/-- The comment can be so long that the word behind it stands a word range behind the first digit,
and this is what is scanned. -/
theorem maskedSpelling_tokens : Program.tokens? (maskedSpelling 1073741823).source =
    some ([⟨.number, "7", ⟨2, 1⟩⟩, .finish 3], none) := by
  let start : Walker := ⟨behindComment ['7', '7'] 1073741823 ['a'],
    ⟨byteCount ['7', '7'] + 4 * 1073741823 + 4, ['a']⟩, false⟩
  have hfirst : start.next = (.ok ⟨.number, "7", ⟨2, 1⟩⟩, start.next.2) :=
    Prod.ext (by decide +kernel) rfl
  have hlast : start.next.2.next = (.ok (.finish 3), start.next.2.next.2) :=
    Prod.ext (by decide +kernel) rfl
  rw [maskedSpelling_source]
  exact Program.tokens?_behindComment (by decide) hfirst (by decide) hlast rfl (by decide +kernel)

/-- Where words do not reach to the end of what is written, a lexeme can be scanned as another one. -/
theorem maskedSpelling_misread : (maskedSpelling 1073741823).Separated ∧
    Program.tokens? (maskedSpelling 1073741823).source ≠
      some ((maskedSpelling 1073741823).tokens, none) := by
  refine ⟨maskedSpelling_separated _, fun hsame => ?_⟩
  rw [maskedSpelling_tokens] at hsame
  have hkinds := congrArg (List.map (·.kind)) (Prod.mk.inj (Option.some_inj.mp hsame)).1
  rw [maskedSpelling_kinds] at hkinds
  exact absurd hkinds (by decide)

end JackCompiler
