import JackCompiler.Proofs.Lexis.Settling
import JackCompiler.Proofs.Output.Words
import JackCompiler.Proofs.Tables.Writing

/-!
# Reading a token table back

A row of a token table is one line, for no token of a source holds a line break. Its columns show
the place of the token, its category and its text, and a reader that knows nothing about the source
gets the token back from them. A table is split into its rows at the line feeds, so sources with the
same table have the same tokens.

## Implementation notes

A number that is too wide for its column moves the columns behind it. The reader therefore takes
digits as far as they go and skips the blanks behind them, whereas the category and its blanks have
a fixed width, so that the text may be any.
-/

namespace JackCompiler

/-! ## Tokens as a scanner answers them -/

/-- A token as a scanner answers it: the end, or a lexeme. -/
inductive Token.Spelled : Token → Prop
  | finish (size : Nat) : Spelled (.finish size)
  | lexeme {t : Token} {after : List Char} : IsLexeme [] after t.kind t.text.toList → Spelled t

theorem Scans.spelled {s : Scanner} {ts : List Token} {e : Option Complaint} (h : Scans s ts e) :
    ∀ t ∈ ts, t.Spelled := by
  induction h with
  | finish hnext hk =>
      intro t ht
      obtain rfl := List.mem_singleton.mp ht
      obtain ⟨rfl, -⟩ := Scanner.next_finish hnext hk
      exact .finish _
  | token hnext hk _ ih =>
      exact List.forall_mem_cons.mpr ⟨.lexeme (Scanner.next_isLexeme hnext hk), ih⟩
  | fault _ =>
      intro t ht
      cases ht

/-! ## Lines -/

/-- A text without line breaks. -/
def IsUnbroken (cs : List Char) : Prop :=
  ∀ c ∈ cs, isLineBreak c = false

instance : DecidablePred IsUnbroken :=
  fun cs => List.decidableBAll (fun c => isLineBreak c = false) cs

namespace IsUnbroken

variable {a b : List Char}

theorem append (ha : IsUnbroken a) (hb : IsUnbroken b) : IsUnbroken (a ++ b) :=
  List.forall_mem_append.mpr ⟨ha, hb⟩

theorem cons {c : Char} (hc : isLineBreak c = false) (ha : IsUnbroken a) : IsUnbroken (c :: a) :=
  List.forall_mem_cons.mpr ⟨hc, ha⟩

theorem blanks (n : Nat) : IsUnbroken (List.replicate n ' ') := by
  intro c hc
  rw [List.eq_of_mem_replicate hc]
  decide

theorem digits (n : Nat) : IsUnbroken (Nat.toDigits 10 n) := by
  intro c hc
  have hdigit := (isDecimal_toDigits n).digits c hc
  rw [← Bool.not_eq_true, isLineBreak, Bool.or_eq_true, beq_iff_eq, beq_iff_eq]
  rintro (rfl | rfl) <;> cases hdigit

theorem word {before after : List Char} (h : IsWord before after a) : IsUnbroken a :=
  fun c hc => isLineBreak_of_isWordChar (h.inside c hc)

end IsUnbroken

/-! ## Columns of a row -/

/-- The digits at the start of a text, as the number that they write. -/
def readDigits? (cs : List Char) : Option (Nat × List Char) :=
  (readNumber? (String.ofList (cs.takeWhile Char.isDigit))).map fun n =>
    (n, cs.dropWhile Char.isDigit)

theorem readDigits?_toDigits (n : Nat) {rest : List Char}
    (h : ∀ c ∈ rest.head?, c.isDigit = false) :
    readDigits? (Nat.toDigits 10 n ++ rest) = some (n, rest) := by
  obtain ⟨htake, hdrop⟩ := takeWhile_append_of_ends (isDecimal_toDigits n).digits h
  have hnumber : readNumber? (String.ofList (Nat.toDigits 10 n)) = some n := by
    apply readNumber?_eq_some.mpr
    rw [Nat.toString_eq_repr, ← String.toList_inj, Nat.toList_repr, String.toList_ofList]
  rw [readDigits?, htake, hdrop, hnumber, Option.map_some]

theorem dropWhile_blanks (n : Nat) {rest : List Char} (h : rest.head? ≠ some ' ') :
    (List.replicate n ' ' ++ rest).dropWhile (· == ' ') = rest := by
  refine (takeWhile_append_of_ends (fun c hc => ?_) fun c hc => ?_).2
  · exact beq_iff_eq.mpr (List.eq_of_mem_replicate hc)
  · rw [beq_eq_false_iff_ne]
    rintro rfl
    exact h hc

/-- The place at the start of a row, and what stands behind it and the blanks that follow. -/
def readPlace? (line : List Char) : Option (Span × List Char) :=
  match readDigits? (line.dropWhile (· == ' ')) with
  | some (start, ':' :: cs) =>
      (readDigits? cs).map fun (size, rest) => (⟨start, size⟩, rest.dropWhile (· == ' '))
  | _ => none

theorem readPlace?_columns (i j start size : Nat) {rest : List Char} (h : rest.head? ≠ some ' ') :
    readPlace? (List.replicate i ' ' ++ (Nat.toDigits 10 start ++ ':' ::
      (Nat.toDigits 10 size ++ (List.replicate (j + 1) ' ' ++ rest)))) =
        some (⟨start, size⟩, rest) := by
  have hblank : (Nat.toDigits 10 start ++ ':' ::
      (Nat.toDigits 10 size ++ (List.replicate (j + 1) ' ' ++ rest))).head? ≠ some ' ' := by
    rw [List.head?_append_of_ne_nil _ (isDecimal_toDigits start).ne_nil]
    intro hhead
    exact absurd ((isDecimal_toDigits start).digits _ (List.mem_of_mem_head? hhead)) (by decide)
  have hcolon : ∀ c ∈ (':' :: (Nat.toDigits 10 size ++
      (List.replicate (j + 1) ' ' ++ rest))).head?, c.isDigit = false := by
    rintro c ⟨⟩
    decide
  have hspace : ∀ c ∈ (List.replicate (j + 1) ' ' ++ rest).head?, c.isDigit = false := by
    rintro c ⟨⟩
    decide
  simp only [readPlace?, dropWhile_blanks i hblank, readDigits?_toDigits start hcolon,
    readDigits?_toDigits size hspace, dropWhile_blanks (j + 1) h, Option.map_some]

namespace Category

/-- All categories. -/
def all : List Category :=
  [keyword, symbol, integerConstant, stringConstant, identifier, endOfSource]

/-- A category in its column. -/
def cell (c : Category) : List Char :=
  (padRight 16 c.text).toList

/-- The category that a column shows. -/
def ofCell? (cs : List Char) : Option Category :=
  all.find? fun c => c.cell == cs

theorem ofCell?_cell (c : Category) : ofCell? c.cell = some c := by
  cases c <;> decide

theorem length_cell (c : Category) : c.cell.length = 16 := by
  cases c <;> decide

theorem head?_cell (c : Category) : c.cell.head? ≠ some ' ' := by
  cases c <;> decide

end Category

/-- The symbol of a markup: an entity, or the character itself. -/
def Symbol.ofMarkup? (markup : String) : Option Symbol :=
  match markupCharacter? markup, markup.toList with
  | some c, _ => ofChar? c
  | none, [c] => ofChar? c
  | none, _ => none

/-- The markup of a symbol. -/
def Symbol.markup (s : Symbol) : String :=
  (markupEntity? s.char).getD (String.singleton s.char)

theorem Symbol.ofMarkup?_markup (s : Symbol) : ofMarkup? s.markup = some s := by
  cases s <;> decide

/-- The kind and the text of a token of a category, given its markup. -/
def Category.read? (c : Category) (markup : String) : Option (Kind × String) :=
  match c with
  | keyword => (Keyword.ofText? markup).map fun k => (.keyword k, markup)
  | symbol => (Symbol.ofMarkup? markup).map fun s => (.symbol s, String.singleton s.char)
  | integerConstant => some (.number, markup)
  | stringConstant => some (.text, markup)
  | identifier => some (.identifier, markup)
  | endOfSource => some (.finish, markup)

/-- The token that a row shows. -/
def readRow? (line : List Char) : Option Token := do
  let (span, columns) ← readPlace? line
  let category ← Category.ofCell? (columns.take 16)
  let (kind, text) ← category.read? (String.ofList (columns.drop 17))
  return ⟨kind, text, span⟩

namespace Token

/-- The row of a token without its line feed. -/
def line (t : Token) : String :=
  padLeft 7 (toString t.span.start) ++ ":" ++ padRight 3 (toString t.span.size) ++ " " ++
    padRight 16 t.kind.category.text ++ " " ++ t.markup

theorem row_eq (t : Token) : t.row = t.line ++ "\n" := rfl

theorem toList_line (t : Token) : ∃ i j, t.line.toList = List.replicate i ' ' ++
    (Nat.toDigits 10 t.span.start ++ ':' :: (Nat.toDigits 10 t.span.size ++
      (List.replicate (j + 1) ' ' ++ (t.kind.category.cell ++ ' ' :: t.markup.toList)))) := by
  refine ⟨7 - (toString t.span.start).length, 3 - (toString t.span.size).length, ?_⟩
  simp [line, padLeft, padRight, spaces, Category.cell, List.replicate_succ']

namespace Spelled

variable {t : Token}

/-- The category of a token and its markup show its kind and its text. -/
theorem read?_markup (h : t.Spelled) :
    t.kind.category.read? t.markup = some (t.kind, t.text) := by
  cases h with
  | finish size => rfl
  | lexeme h =>
      obtain ⟨kind, text, span⟩ := t
      generalize htext : text.toList = cs at h
      cases h with
      | text | number | identifier => rfl
      | keyword _ hword =>
          obtain rfl := String.toList_inj.mp (htext.trans hword)
          simp [markup, Kind.category, Category.read?]
      | @symbol s =>
          obtain rfl := String.toList_inj.mp (htext.trans (String.toList_singleton _).symm)
          have hsymbol : Symbol.ofMarkup? (markup ⟨.symbol s, String.singleton s.char, span⟩) =
              some s := s.ofMarkup?_markup
          rw [Kind.category, Category.read?, hsymbol, Option.map_some]

theorem markup_unbroken (h : t.Spelled) : IsUnbroken t.markup.toList := by
  cases h with
  | finish size => exact List.forall_mem_nil _
  | lexeme h =>
      obtain ⟨kind, text, span⟩ := t
      generalize htext : text.toList = cs at h
      cases h with
      | @text body hbody =>
          have hchars : IsUnbroken body := by
            intro c hc
            obtain ⟨-, hreturn, hfeed⟩ := hbody c hc
            simp [isLineBreak, hreturn, hfeed]
          rw [markup, htext]
          exact .cons (by decide) (hchars.append (by decide))
      | number hw | keyword hw | identifier hw =>
          rw [markup, htext]
          exact .word hw
      | @symbol s =>
          have hmarkup : IsUnbroken s.markup.toList := by cases s <;> decide
          obtain rfl := String.toList_inj.mp (htext.trans (String.toList_singleton _).symm)
          exact hmarkup

/-- The row of a token is one line. -/
theorem line_unbroken (h : t.Spelled) : IsUnbroken t.line.toList := by
  have hcell : IsUnbroken t.kind.category.cell := by cases t.kind.category <;> decide
  obtain ⟨i, j, hline⟩ := t.toList_line
  rw [hline]
  apply (IsUnbroken.blanks i).append
  apply (IsUnbroken.digits _).append
  apply IsUnbroken.cons (by decide)
  apply (IsUnbroken.digits _).append
  apply (IsUnbroken.blanks (j + 1)).append
  exact hcell.append (.cons (by decide) h.markup_unbroken)

/-- The row of a token is read back. -/
theorem readRow?_line (h : t.Spelled) : readRow? t.line.toList = some t := by
  obtain ⟨i, j, hline⟩ := t.toList_line
  have hhead : (t.kind.category.cell ++ ' ' :: t.markup.toList).head? ≠ some ' ' := by
    have hne : t.kind.category.cell ≠ [] := by
      rw [← List.length_pos_iff, Category.length_cell]
      decide
    rw [List.head?_append_of_ne_nil _ hne]
    exact t.kind.category.head?_cell
  have hcell : (t.kind.category.cell ++ ' ' :: t.markup.toList).take 16 = t.kind.category.cell :=
    List.take_left' t.kind.category.length_cell
  have hmarkup : (t.kind.category.cell ++ ' ' :: t.markup.toList).drop 17 = t.markup.toList := by
    rw [List.append_cons]
    apply List.drop_left'
    rw [List.length_append, Category.length_cell]
    rfl
  rw [readRow?, hline, readPlace?_columns i j _ _ hhead]
  simp [hcell, hmarkup, Category.ofCell?_cell, h.read?_markup]

end Spelled

end Token

/-! ## Tables -/

/-- The tokens that a table lists: one for each line between its header and its end. -/
def readTable? (table : String) : Option (List Token) :=
  ((textLines table).drop 1).dropLast.mapM readRow?

/-- The rows of tokens are lines of a text. -/
theorem textLines_rows {ts : List Token} (h : ∀ t ∈ ts, t.Spelled) :
    textLines (String.join (ts.map Token.row)) = ts.map (·.line.toList) ++ [[]] := by
  induction ts with
  | nil => rfl
  | cons t ts ih =>
      obtain ⟨ht, hts⟩ := List.forall_mem_cons.mp h
      have hfeed : '\n' ∉ t.line.toList := by
        intro hmem
        exact absurd (ht.line_unbroken _ hmem) (by decide)
      calc textLines (String.join ((t :: ts).map Token.row))
        _ = (t.line.toList ++ '\n' :: (String.join (ts.map Token.row)).toList).splitOn '\n' := by
          rw [List.map_cons, String.join_cons, Token.row_eq, textLines, String.toList_append,
            String.toList_append, List.append_assoc]
          rfl
        _ = t.line.toList.splitOn '\n' ++ textLines (String.join (ts.map Token.row)) :=
          List.splitOn_append_cons_self _ _
        _ = (t :: ts).map (·.line.toList) ++ [[]] := by
          rw [List.splitOn_eq_singleton hfeed, ih hts]
          rfl

theorem mapM_readRow? {ts : List Token} (h : ∀ t ∈ ts, t.Spelled) :
    (ts.map (·.line.toList)).mapM readRow? = some ts := by
  induction ts with
  | nil => rfl
  | cons t ts ih =>
      obtain ⟨ht, hts⟩ := List.forall_mem_cons.mp h
      simp [ht.readRow?_line, ih hts]

theorem tokensOf_spelled (source : String) : ∀ t ∈ tokensOf source, t.Spelled :=
  (tokensOf_scans source).spelled

/-- The table of a source is read back as the tokens of the source. -/
theorem readTable?_tableOf (source : String) :
    readTable? (tableOf source) = some (tokensOf source) := by
  have hspelled := tokensOf_spelled source
  obtain ⟨header, hheader, hfeed⟩ :
      ∃ header, tableHeader.toList = header ++ ['\n'] ∧ '\n' ∉ header :=
    ⟨" offset:len  category         text".toList, by decide, by decide⟩
  have hlines : textLines (tableOf source) =
      header :: ((tokensOf source).map (·.line.toList) ++ [[]]) := by
    rw [← textLines_rows hspelled, tableOf, textLines, String.toList_append, hheader,
      List.append_assoc, List.singleton_append, List.splitOn_append_cons_self,
      List.splitOn_eq_singleton hfeed, List.singleton_append, textLines]
  rw [readTable?, hlines, List.drop_one, List.tail_cons, List.dropLast_concat]
  exact mapM_readRow? hspelled

/-- A token table lists the tokens of a source, in order, with one line for each of them, and ends
with the complaint about the source if there is one. A line shows which token it is, and the table
shows which tokens there are, so that sources with the same table have the same tokens. A limited
sink holds the first characters of the same table, and it is full exactly if the table is longer. -/
theorem tokenTable_complete (source content : String) :
    let table := tableHeader ++ String.join ((tokensOf source).map Token.row)
    let outcome : Except Failure Unit :=
      match faultOf? source with
      | none => .ok ()
      | some c => .error (c.failure source)
    Scans (Scanner.ofSource source) (tokensOf source) (faultOf? source) ∧
    (tokenTable source ⟨none, content⟩).1.outcome = outcome ∧
    (tokenTable source ⟨none, content⟩).2.content = content ++ table ∧
    (∀ t ∈ tokensOf source, ∃ line, t.row = line ++ "\n" ∧
      IsUnbroken line.toList ∧ readRow? line.toList = some t) ∧
    readTable? table = some (tokensOf source) ∧
    (∀ other, (tokenTable other ⟨none, content⟩).2.content =
      (tokenTable source ⟨none, content⟩).2.content → tokensOf other = tokensOf source) ∧
    ∀ room, (tokenTable source ⟨some room, content⟩).1.outcome =
        (if table.length ≤ room then outcome else .error .tableFull) ∧
      (tokenTable source ⟨some room, content⟩).2.content =
        content ++ String.ofList (table.toList.take room) := by
  intro table outcome
  obtain ⟨houtcome, hcontent⟩ := tokenTable_unlimited source content
  refine ⟨tokensOf_scans source, houtcome, hcontent, fun t ht => ?_, readTable?_tableOf source,
    fun other h => ?_, tokenTable_limited source content⟩
  · have hspelled := tokensOf_spelled source t ht
    exact ⟨t.line, t.row_eq, hspelled.line_unbroken, hspelled.readRow?_line⟩
  · rw [hcontent, (tokenTable_unlimited other content).2, String.append_right_inj] at h
    apply Option.some_inj.mp
    rw [← readTable?_tableOf other, ← readTable?_tableOf source, h]

end JackCompiler
