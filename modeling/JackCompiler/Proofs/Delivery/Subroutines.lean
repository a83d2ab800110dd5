import JackCompiler.Proofs.Declarations.Slots
import JackCompiler.Proofs.Delivery.Reuse
import JackCompiler.Proofs.Output.Reading

/-!
# Classes subroutine by subroutine

What is written for a subroutine depends on the name and the variables of its class, and not on the
subroutines around it. So the text of a class is made of the texts that its subroutines have in
classes of their own, and a class fails with the first subroutine that fails in a class of its own,
just as that one does.

## Implementation notes

A generator that goes from one subroutine to the next keeps its counters and the scope that it had.
That they do not matter is part of `Generator.subroutine_spec`, so the code of a subroutine can be
compared between classes without looking at generators.
-/

namespace JackCompiler

namespace Trail

variable {α : Type}

theorem append_of_stopped {a : Trail α} {e : Complaint} (h : a.fault = some e) (b : Trail α) :
    a ++ b = a := by
  obtain ⟨items, fault⟩ := a
  obtain rfl : fault = some e := h
  rfl

theorem join_append (ts us : List (Trail α)) : join (ts ++ us) = join ts ++ join us := by
  induction ts with
  | nil => rfl
  | cons t ts ih => rw [List.cons_append, join_cons, join_cons, ih, append_assoc]

theorem join_fault_eq_none_iff {ts : List (Trail α)} :
    (join ts).fault = none ↔ ∀ t ∈ ts, t.fault = none := by
  induction ts with
  | nil => exact iff_of_true rfl fun _ ht => absurd ht List.not_mem_nil
  | cons t ts ih => rw [join_cons, fault_append_eq_none_iff, ih, List.forall_mem_cons]

/-- A join is stopped with its first part that is stopped. -/
theorem join_stopped {ts us : List (Trail α)} {t : Trail α} {e : Complaint}
    (hts : ∀ u ∈ ts, u.fault = none) (ht : t.fault = some e) :
    join (ts ++ t :: us) = ⟨ts.flatMap Trail.items ++ t.items, some e⟩ := by
  have hfinished := join_fault_eq_none_iff.mpr hts
  have hfirst : join ts = of (ts.flatMap Trail.items) :=
    eq_mk_iff.mpr ⟨hfinished, (join_finished hfinished).1⟩
  rw [join_append, join_cons, append_of_stopped ht, hfirst, of_append, ht]

end Trail

/-! ## Texts of subroutines -/

/-- The line that begins the function of a name, with a number of local variables. -/
def functionLine (name : String) (locals : Nat) : String :=
  "function " ++ name ++ " " ++ toString locals

/-- The first line of a text begins the function of a name, with a number of local variables, and no
other line of the text begins a function. -/
def IsFunctionText (name : String) (locals : Nat) (text : String) : Prop :=
  ∃ rest, textLines text = (functionLine name locals).toList :: rest ∧
    ∀ line ∈ rest, ¬"function ".toList <+: line

/-- Only a function line begins with the word for one. -/
theorem Instruction.isFunction_of_prefix {i : Instruction}
    (h : "function ".toList <+: i.text.toList) : i.isFunction = true := by
  obtain ⟨rest, hrest⟩ := h
  have hfirst : i.text.toList.head? = some 'f' := by
    rw [← hrest]
    rfl
  cases i with
  | function => rfl
  | command c => cases c <;> cases hfirst
  | push | pop | label | goto | ifGoto | call =>
      simp [Instruction.text, String.toList_append] at hfirst
  | ret => cases hfirst

/-- A legible function is a text with one function line, which is its first. -/
theorem isFunctionText_listing {name : String} {locals : Nat} {code : List Instruction}
    (hlegible : ∀ i ∈ .function name locals :: code, i.Legible)
    (hcode : ∀ i ∈ code, i.isFunction = false) :
    IsFunctionText name locals (listing (.function name locals :: code)) := by
  refine ⟨code.map (·.text.toList) ++ [[]], ?_, ?_⟩
  · rw [textLines_listing hlegible, List.map_cons, List.cons_append]
    rfl
  · intro line hline hprefix
    rcases List.mem_append.mp hline with hline | hline
    · obtain ⟨i, hi, rfl⟩ := List.mem_map.mp hline
      have hfunction := Instruction.isFunction_of_prefix hprefix
      rw [hcode i hi] at hfunction
      cases hfunction
    · obtain rfl := List.mem_singleton.mp hline
      cases List.prefix_nil.mp hprefix

namespace ClassTree

/-- A class with other subroutines. -/
def having (c : ClassTree) (ss : List Subroutine) : ClassTree :=
  { c with subroutines := ss }

/-- The text that is written for a class with one of its subroutines alone, complete or not. -/
def chunk (o : Options) (c : ClassTree) (s : Subroutine) : String :=
  listing ((c.having [s]).output o).items

/-- There are numbers enough for the variables of a class. -/
def VariablesFit (c : ClassTree) : Prop :=
  ∀ k, c.declarations.countP (·.kind == k) ≤ maxVariables

variable {o : Options} {c : ClassTree} {s : Subroutine}

theorem declare_fault_iff :
    (Scope.empty.declare c.declarations).1.fault = none ↔ c.VariablesFit := by
  rw [Scope.declare_fault_eq_none_iff, Scope.count_empty]
  · simp only [Nat.zero_add]
    rfl
  · intro k
    rw [Scope.count_empty]
    exact Nat.zero_le _

/-- In any class of its name and variables a subroutine has the same code. -/
theorem output_having (o : Options) (c : ClassTree) (ss : List Subroutine) :
    (c.having ss).output o = ⟨[], (Scope.empty.declare c.declarations).1.fault⟩ ++
      .join (ss.map (c.functionCode o)) :=
  output_eq o (c.having ss)

/-- A class whose variables fit is compiled to the code of its subroutines. -/
theorem output_having_of_fit (hfit : c.VariablesFit) (ss : List Subroutine) :
    (c.having ss).output o = .join (ss.map (c.functionCode o)) := by
  rw [output_having, declare_fault_iff.mpr hfit]
  rfl

theorem output_alone (hfit : c.VariablesFit) (s : Subroutine) :
    (c.having [s]).output o = c.functionCode o s := by
  rw [output_having_of_fit hfit]
  exact Trail.append_of_nil _

theorem chunk_eq (hfit : c.VariablesFit) (s : Subroutine) :
    c.chunk o s = listing (c.functionCode o s).items := by
  rw [chunk, output_alone hfit]

theorem variablesFit_of_compiles (h : (c.output o).fault = none) : c.VariablesFit :=
  declare_fault_iff.mp (output_parts h).1

/-- With some of the subroutines of a class that compiles, in any order, the class compiles to their
texts in that order. -/
theorem output_having_of_compiles (h : (c.output o).fault = none) {ss : List Subroutine}
    (hss : ss ⊆ c.subroutines) : ((c.having ss).output o).fault = none ∧
      listing ((c.having ss).output o).items = String.join (ss.map (c.chunk o)) := by
  have hfit := variablesFit_of_compiles h
  have hjoin : (Trail.join (ss.map (c.functionCode o))).fault = none := by
    rw [Trail.join_fault_eq_none_iff, List.forall_mem_map]
    exact fun s hs => (output_parts h).2.2 s (hss hs)
  rw [output_having_of_fit hfit, (Trail.join_finished hjoin).1, List.flatMap_map, listing_flatMap]
  exact ⟨hjoin, congrArg String.join (List.map_congr_left fun s _ => (chunk_eq hfit s).symm)⟩

/-- The text of a subroutine of a class that compiles starts with the line of its function, with the
number of its local variables. -/
theorem functionLine_prefix_chunk (h : (c.output o).fault = none) (hs : s ∈ c.subroutines) :
    (functionLine (c.name.text ++ "." ++ s.name.text) s.body.localCount ++ "\n").toList <+:
      (c.chunk o s).toList := by
  have hchunk : c.chunk o s =
      functionLine (c.name.text ++ "." ++ s.name.text) s.body.localCount ++ "\n" ++
        listing (s.kind.prologue (c.extent s .this) ++ (c.bodyCode o s).items) := by
    rw [chunk_eq (variablesFit_of_compiles h), (functionCode_parts ((output_parts h).2.2 s hs)).2.2,
      opening_eq h hs, List.cons_append, listing_cons]
    rfl
  simp only [hchunk, String.toList_append]
  exact List.prefix_append _ _

/-- The text of a subroutine of a source that compiles is one function. -/
theorem isFunctionText_chunk {source : String} (hparse : (parse source).outcome = .ok c)
    (h : (c.output o).fault = none) (hs : s ∈ c.subroutines) :
    IsFunctionText (c.name.text ++ "." ++ s.name.text) s.body.localCount (c.chunk o s) := by
  have hcode : (c.functionCode o s).items = c.opening s ++ (c.bodyCode o s).items :=
    (functionCode_parts ((output_parts h).2.2 s hs)).2.2
  have hlegible : ∀ i ∈ c.opening s ++ (c.bodyCode o s).items, i.Legible := by
    intro i hi
    refine output_legible hparse o i ?_
    rw [(output_finished h).1]
    exact List.mem_flatMap.mpr ⟨s, hs, hi⟩
  rw [chunk_eq (variablesFit_of_compiles h), hcode]
  rw [opening_eq h hs, List.cons_append] at hlegible ⊢
  exact isFunctionText_listing hlegible fun i hi => isFunction_of_mem hi

/-- A class is stopped where its first subroutine that is stopped alone is stopped alone. -/
theorem output_stopped (hfit : c.VariablesFit) {before after : List Subroutine} {e : Complaint}
    (hstands : c.subroutines = before ++ s :: after)
    (hbefore : ∀ b ∈ before, ((c.having [b]).output o).fault = none)
    (hs : ((c.having [s]).output o).fault = some e) :
    (c.output o).fault = some e ∧
      listing (c.output o).items = String.join (before.map (c.chunk o)) ++ c.chunk o s := by
  have hfinished : ∀ u ∈ before.map (c.functionCode o), u.fault = none := by
    rw [List.forall_mem_map]
    intro b hb
    rw [← output_alone hfit]
    exact hbefore b hb
  rw [output_alone hfit] at hs
  have hself : c.having (before ++ s :: after) = c := by
    rw [← hstands]
    rfl
  have houtput : c.output o =
      ⟨(before.map (c.functionCode o)).flatMap Trail.items ++ (c.functionCode o s).items,
        some e⟩ := by
    rw [← hself, output_having_of_fit hfit, List.map_append, List.map_cons]
    exact Trail.join_stopped hfinished hs
  rw [houtput, listing_append, List.flatMap_map, listing_flatMap, chunk_eq hfit]
  refine ⟨rfl, congrArg (String.join · ++ _) ?_⟩
  exact List.map_congr_left fun b _ => (chunk_eq hfit b).symm

/-- If a class is stopped although its variables fit, one of its subroutines is the first that is
stopped alone. -/
theorem exists_stopped (hfit : c.VariablesFit) (h : (c.output o).fault ≠ none) :
    ∃ before s after e, c.subroutines = before ++ s :: after ∧
      (∀ b ∈ before, ((c.having [b]).output o).fault = none) ∧
      ((c.having [s]).output o).fault = some e := by
  have hjoin : (Trail.join (c.subroutines.map (c.functionCode o))).fault ≠ none := by
    rw [← output_having_of_fit hfit]
    exact h
  cases hfind : c.subroutines.find? fun s => (c.functionCode o s).fault.isSome with
  | none =>
      refine absurd ?_ hjoin
      rw [Trail.join_fault_eq_none_iff, List.forall_mem_map]
      simpa using hfind
  | some s =>
      obtain ⟨hs, before, after, hstands, hbefore⟩ := List.find?_eq_some_iff_append.mp hfind
      obtain ⟨e, he⟩ := Option.isSome_iff_exists.mp hs
      refine ⟨before, s, after, e, hstands, fun b hb => ?_, ?_⟩
      · rw [output_alone hfit]
        simpa using hbefore b hb
      · rw [output_alone hfit, he]

end ClassTree

namespace Compiler

/-- A subroutine is the first of a class that fails in a class of its own, in this way. -/
structure FailsFirst (c : Compiler) (t : ClassTree) (before : List Subroutine) (s : Subroutine)
    (e : Failure) : Prop where
  stands : ∃ after, t.subroutines = before ++ s :: after
  earlier : ∀ b ∈ before, (c.compile (t.having [b])).1.outcome = .ok ()
  fails : (c.compile (t.having [s])).1.outcome = .error e

section

variable {c : Compiler} (h : c.sink.Unlimited)
include h

theorem compile_sink (t : ClassTree) :
    (c.compile t).2.sink = c.sink.extend (listing (t.output c.options).items) := by
  rw [(compile_eq h t).2]

theorem compile_outcome (t : ClassTree) :
    (c.compile t).1.outcome = (t.output c.options).outcome c.source := by
  simp only [compile, h.deliver, Generator.compile_fst]
  rfl

theorem compile_outcome_ok_iff {t : ClassTree} :
    (c.compile t).1.outcome = .ok () ↔ (t.output c.options).fault = none := by
  rw [compile_outcome h, Trail.outcome]
  cases (t.output c.options).fault <;> simp

theorem compile_outcome_error_iff {t : ClassTree} {e : Failure} :
    (c.compile t).1.outcome = .error e ↔
      ∃ k, (t.output c.options).fault = some k ∧ k.failure c.source = e := by
  rw [compile_outcome h, Trail.outcome]
  cases (t.output c.options).fault <;> simp

/-- A class whose first failing subroutine is known fails as that one does, and writes what that one
and those before it write. -/
theorem FailsFirst.compile {t : ClassTree} (hfit : t.VariablesFit) {before : List Subroutine}
    {s : Subroutine} {e : Failure} (hfirst : c.FailsFirst t before s e) :
    (c.compile t).1.outcome = .error e ∧ (c.compile t).2.sink =
      c.sink.extend (String.join (before.map (t.chunk c.options)) ++ t.chunk c.options s) := by
  obtain ⟨⟨after, hstands⟩, hearlier, hfails⟩ := hfirst
  obtain ⟨k, hk, rfl⟩ := (compile_outcome_error_iff h).mp hfails
  obtain ⟨hfault, htext⟩ := ClassTree.output_stopped hfit hstands
    (fun b hb => (compile_outcome_ok_iff h).mp (hearlier b hb)) hk
  rw [compile_outcome_error_iff h, compile_sink h, htext]
  exact ⟨⟨k, hfault, rfl⟩, rfl⟩

theorem exists_failsFirst {t : ClassTree} (hfit : t.VariablesFit) {e : Failure}
    (hfails : (c.compile t).1.outcome = .error e) : ∃ before s, c.FailsFirst t before s e := by
  obtain ⟨k, hk, -⟩ := (compile_outcome_error_iff h).mp hfails
  obtain ⟨before, s, after, k', hstands, hbefore, hs⟩ :=
    ClassTree.exists_stopped hfit (hk ▸ Option.some_ne_none k)
  have hfirst : c.FailsFirst t before s (k'.failure c.source) :=
    ⟨⟨after, hstands⟩, fun b hb => (compile_outcome_ok_iff h).mpr (hbefore b hb),
      (compile_outcome_error_iff h).mpr ⟨k', hs, rfl⟩⟩
  obtain rfl := Except.error.inj (hfails.symm.trans (hfirst.compile h hfit).1)
  exact ⟨before, s, hfirst⟩

end

/-- A class of a source is compiled subroutine by subroutine, into any sink that never fails. If it
compiles, so does each subroutine in a class of its own, to a chunk of text that starts with the line
of its function; the text of the class is that of the chunks in source order, and in any other order
of the subroutines the chunks come in that order. If words reach to the end of the source, a chunk has
no other function line. If there are numbers enough for its variables, the class fails exactly if one
of its subroutines is the first that fails in a class of its own. The failure is the same, and the
sink has the chunks of the subroutines before and behind them what the one that fails writes. -/
theorem compile_subroutines {source : String} {tree : ClassTree}
    (hparse : (Program.parse source).outcome = .ok tree) {c : Compiler} (h : c.sink.Unlimited) :
    let chunk := tree.chunk c.options
    (∀ s, (c.compile (tree.having [s])).2.sink = c.sink.extend (chunk s)) ∧
    ((c.compile tree).1.outcome = .ok () →
      (c.compile tree).2.sink = c.sink.extend (String.join (tree.subroutines.map chunk)) ∧
      (∀ s ∈ tree.subroutines, (c.compile (tree.having [s])).1.outcome = .ok () ∧
        (functionLine (tree.name.text ++ "." ++ s.name.text) s.body.localCount ++ "\n").toList <+:
          (chunk s).toList ∧
        (byteCount source.toList ≤ maxOffset →
          IsFunctionText (tree.name.text ++ "." ++ s.name.text) s.body.localCount (chunk s))) ∧
      ∀ ss, ss.Perm tree.subroutines → (c.compile (tree.having ss)).1.outcome = .ok () ∧
        (c.compile (tree.having ss)).2.sink = c.sink.extend (String.join (ss.map chunk))) ∧
    (tree.VariablesFit →
      (∀ e, (c.compile tree).1.outcome = .error e ↔ ∃ before s, c.FailsFirst tree before s e) ∧
      ∀ before s e, c.FailsFirst tree before s e → (c.compile tree).2.sink =
        c.sink.extend (String.join (before.map chunk) ++ chunk s)) := by
  dsimp only
  refine ⟨fun s => compile_sink h _, fun hok => ?_, fun hfit => ⟨fun e => ⟨?_, ?_⟩, ?_⟩⟩
  · have hcompiles := (compile_outcome_ok_iff h).mp hok
    have hsome (ss : List Subroutine) (hss : ss ⊆ tree.subroutines) :
        (c.compile (tree.having ss)).1.outcome = .ok () ∧
          (c.compile (tree.having ss)).2.sink =
            c.sink.extend (String.join (ss.map (tree.chunk c.options))) := by
      obtain ⟨hfault, htext⟩ := ClassTree.output_having_of_compiles hcompiles hss
      rw [compile_outcome_ok_iff h, compile_sink h, htext]
      exact ⟨hfault, rfl⟩
    refine ⟨(hsome _ (List.Subset.refl _)).2, fun s hs => ⟨?_, ?_, fun hsize => ?_⟩,
      fun ss hss => hsome ss hss.subset⟩
    · exact (hsome [s] (List.cons_subset.mpr ⟨hs, List.nil_subset _⟩)).1
    · exact ClassTree.functionLine_prefix_chunk hcompiles hs
    · rw [Program.parse_of_le hsize] at hparse
      exact ClassTree.isFunctionText_chunk hparse hcompiles hs
  · exact exists_failsFirst h hfit
  · rintro ⟨before, s, hfirst⟩
    exact (hfirst.compile h hfit).1
  · exact fun before s e hfirst => (hfirst.compile h hfit).2

end Compiler

/-- A class with a function that returns a variable that nothing declares, between two that
compile. -/
def haltSource : String :=
  "class A\x7bstatic int k;function void f()\x7breturn;\x7dfunction int g(int n)\x7bvar int i;" ++
    "let k=n;return j;\x7dmethod void h()\x7breturn;\x7d\x7d"

/-- A compiler for it. -/
def haltCompiler : Compiler :=
  .new haltSource .standard (.empty none false)

theorem haltSource_subroutines : haltCompiler.sink.Unlimited ∧
    ∃ tree, (Program.parse haltSource).outcome = .ok tree ∧ tree.VariablesFit ∧
      ∃ before s e, haltCompiler.FailsFirst tree before s e ∧
        (haltCompiler.compile tree).1.outcome = .error e ∧
        (haltCompiler.compile tree).2.sink = haltCompiler.sink.extend
          (String.join (before.map (tree.chunk .standard)) ++ tree.chunk .standard s) := by
  have hrun : (Program.parse haltSource).outcome.toOption.map (fun tree =>
      (tree.declarations.length, (haltCompiler.compile tree).1.outcome.isOk)) =
        some (1, false) := by
    rw [Program.parse_of_le (by decide +kernel)]
    decide +kernel
  rcases hparse : (Program.parse haltSource).outcome with e | tree
  · rw [hparse] at hrun
    cases hrun
  · rw [hparse] at hrun
    obtain ⟨hlength, hfails⟩ := Prod.mk.inj (Option.some_inj.mp hrun)
    have hfit : tree.VariablesFit := fun k =>
      Nat.le_trans List.countP_le_length (Nat.le_trans (Nat.le_of_eq hlength) (by decide))
    have hsink : haltCompiler.sink.Unlimited := ⟨rfl, rfl⟩
    rcases he : (haltCompiler.compile tree).1.outcome with e | ⟨⟩
    · obtain ⟨hiff, htext⟩ := (Compiler.compile_subroutines hparse hsink).2.2 hfit
      obtain ⟨before, s, hfirst⟩ := (hiff e).mp he
      exact ⟨hsink, tree, rfl, hfit, before, s, e, hfirst, he, htext before s e hfirst⟩
    · rw [he] at hfails
      cases hfails

/-- Where words do not reach to the end of a source, a subroutine that compiles can have more than one
function line. -/
theorem wrappedSource_chunk : ∃ tree s, (Program.parse wrappedSource).outcome = .ok tree ∧
    (tree.output .standard).fault = none ∧ s ∈ tree.subroutines ∧
      ¬∃ name locals, IsFunctionText name locals (tree.chunk .standard s) := by
  obtain ⟨tree, records, hparse, h⟩ := wrappedSource_parse
  obtain ⟨s, hs⟩ := List.length_eq_one_iff.mp h.alone
  refine ⟨tree, s, by rw [hparse], h.compiles, by simp [hs], ?_⟩
  have hself : tree.having [s] = tree := by rw [ClassTree.having, ← hs]
  rintro ⟨name, locals, rest, hlines, hrest⟩
  rw [ClassTree.chunk, hself, h.lists] at hlines
  have hsecond : "function A.b 0".toList ∈ rest := by
    rw [← List.tail_eq_of_cons_eq hlines]
    decide +kernel
  exact hrest _ hsecond (by decide)

end JackCompiler
