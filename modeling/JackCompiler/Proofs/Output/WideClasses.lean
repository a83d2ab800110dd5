import JackCompiler.Proofs.Output.Constants
import JackCompiler.Proofs.Syntax.Acceptance

/-!
# Classes with many fields

A class can have as many fields as there are numbers for variables, and that is more than the machine
has constants. For every such number there is a source with a constructor that compiles, and its
constructor pushes the number.
-/

namespace JackCompiler

/-- A class with given fields and a constructor of a given name that only returns its object. -/
def wideClass (new : Name) (fields : List Name) : ClassTree :=
  { name := ⟨"A", ⟨6, 1⟩⟩
    vars := [⟨.field, .int, fields⟩]
    subroutines := [
      { kind := .constructor
        returns := some (.object "A")
        name := new
        parameters := []
        body := ⟨[], [.ret (some (.operand [] (.word .this)))]⟩ }] }

section Output

variable {fields : List Name} (new : Name)

theorem wideClass_count (fields : List Name) :
    (wideClass new fields).declarations.countP (·.kind == .field) = fields.length := by
  have hdeclarations : (wideClass new fields).declarations =
      fields.map fun n => ⟨n, .int, .field⟩ :=
    List.flatMap_singleton _ _
  rw [hdeclarations, List.countP_map]
  exact List.countP_eq_length.mpr fun _ _ => rfl

variable (h : fields.length ≤ maxVariables)

include h

theorem wideClass_declared :
    (Scope.empty.declare (wideClass new fields).declarations).1.fault = none := by
  rw [Scope.declare_fault, Option.map_eq_none_iff, List.find?_eq_none]
  intro p hp
  have hfield : p.1.kind = .field := by
    obtain ⟨line, hline, hp⟩ := List.mem_flatMap.mp (mem_of_mem_numbered hp)
    obtain rfl := List.mem_singleton.mp hline
    obtain ⟨n, -, hn⟩ := List.mem_map.mp hp
    rw [← hn]
    rfl
  have hlt := lt_of_mem_numbered hp
  rw [hfield, wideClass_count, Scope.count_empty, Nat.zero_add] at hlt
  simp only [fits, Bool.not_eq_true', decide_eq_false_iff_not, Decidable.not_not]
  omega

/-- The constructor pushes the number of fields, however many there are. -/
theorem wideClass_output (o : Options) : (wideClass new fields).output o =
    .of [.function ("A" ++ "." ++ new.text) 0, pushConstant fields.length,
      .call "Memory.alloc" 1, .pop .pointer 0, .push .pointer 0, .ret] := by
  have hdeclared := wideClass_declared new h
  have hfields : (wideClass new fields).scope.count .field = fields.length := by
    rw [ClassTree.scope, Scope.declare_count hdeclared, Scope.count_empty, wideClass_count]
    exact Nat.zero_add _
  rw [ClassTree.output_eq, hdeclared]
  calc
    ⟨[], none⟩ ++ Trail.join ((wideClass new fields).subroutines.map
          ((wideClass new fields).functionCode o)) =
        .of (.function ("A" ++ "." ++ new.text) 0 ::
          SubroutineKind.constructor.prologue ((wideClass new fields).scope.count .field) ++
          [.push .pointer 0, .ret]) := rfl
    _ = _ := by rw [hfields]; rfl

end Output

/-! ## Sources -/

/-- What follows the fields: the end of their declaration, and a constructor. -/
def constructorChars : List Char :=
  ";constructor A new()\x7breturn this;\x7d\x7d".toList

/-- More names in a declaration, each on a line of its own. -/
def moreChars : Nat → List Char
  | 0 => []
  | n + 1 => ',' :: '\n' :: 'x' :: moreChars n

/-- A source of a class with a field and a number of others. -/
def wideSource (more : Nat) : String :=
  .ofList ("class A\x7bfield int x".toList ++ (moreChars more ++ constructorChars))

/-- The tokens of more names, behind some bytes. -/
def moreTokens (k : Nat) : Nat → List Token
  | 0 => []
  | n + 1 =>
      ⟨.symbol .comma, ",", ⟨k, 1⟩⟩ :: ⟨.identifier, "x", ⟨k + 2, 1⟩⟩ :: moreTokens (k + 3) n

/-- The tokens of a constructor and of the end of its class, behind the end of a declaration. -/
def constructorTokens (k : Nat) : List Token :=
  [⟨.keyword .constructor, "constructor", ⟨k + 1, 11⟩⟩, ⟨.identifier, "A", ⟨k + 13, 1⟩⟩,
    ⟨.identifier, "new", ⟨k + 15, 3⟩⟩, ⟨.symbol .leftParen, "(", ⟨k + 18, 1⟩⟩,
    ⟨.symbol .rightParen, ")", ⟨k + 19, 1⟩⟩, ⟨.symbol .leftBrace, "\x7b", ⟨k + 20, 1⟩⟩,
    ⟨.keyword .returnStmt, "return", ⟨k + 21, 6⟩⟩, ⟨.keyword .this, "this", ⟨k + 28, 4⟩⟩,
    ⟨.symbol .semicolon, ";", ⟨k + 32, 1⟩⟩, ⟨.symbol .rightBrace, "\x7d", ⟨k + 33, 1⟩⟩]

/-- The tokens of a wide source, with a part in the middle that depends on its width. -/
def wideTokens (more : Nat) : List Token :=
  [⟨.keyword .classDecl, "class", ⟨0, 5⟩⟩, ⟨.identifier, "A", ⟨6, 1⟩⟩,
    ⟨.symbol .leftBrace, "\x7b", ⟨7, 1⟩⟩, ⟨.keyword .field, "field", ⟨8, 5⟩⟩,
    ⟨.keyword .int, "int", ⟨14, 3⟩⟩, ⟨.identifier, "x", ⟨18, 1⟩⟩] ++ (moreTokens 19 more ++
    ⟨.symbol .semicolon, ";", ⟨19 + 3 * more, 1⟩⟩ :: (constructorTokens (19 + 3 * more) ++
    [⟨.symbol .rightBrace, "\x7d", ⟨19 + 3 * more + 34, 1⟩⟩]))

theorem scans_constructor (k : Nat) : Scans ⟨k, constructorChars⟩
    (⟨.symbol .semicolon, ";", ⟨k, 1⟩⟩ :: (constructorTokens k ++
      [⟨.symbol .rightBrace, "\x7d", ⟨k + 34, 1⟩⟩, .finish (k + 35)])) none :=
  .token rfl nofun (.token rfl nofun (.token rfl nofun (.token rfl nofun (.token rfl nofun
    (.token rfl nofun (.token rfl nofun (.token rfl nofun (.token rfl nofun (.token rfl nofun
      (.token rfl nofun (.token rfl nofun (.finish rfl rfl))))))))))))

theorem scans_more {us : Nat → List Token}
    (h : ∀ k, Scans ⟨k, constructorChars⟩ (us k) none) (n k : Nat) :
    Scans ⟨k, moreChars n ++ constructorChars⟩ (moreTokens k n ++ us (k + 3 * n)) none := by
  induction n generalizing k with
  | zero => exact h k
  | succ n ih =>
      -- Whether a comma or the end of the declaration is next, the name ends there.
      have hname : Scanner.next ⟨k + 1, '\n' :: 'x' :: (moreChars n ++ constructorChars)⟩ =
          (.ok ⟨.identifier, "x", ⟨k + 2, 1⟩⟩, ⟨k + 3, moreChars n ++ constructorChars⟩) := by
        cases n <;> rfl
      have hoffset : k + 3 + 3 * n = k + 3 * (n + 1) := by omega
      have hrest := ih (k + 3)
      rw [hoffset] at hrest
      exact .token rfl nofun (.token hname nofun hrest)

theorem wideSource_tokens (n : Nat) :
    tokensOf (wideSource n) = wideTokens n ++ [.finish (19 + 3 * n + 35)] ∧
      faultOf? (wideSource n) = none := by
  apply (tokensOf_scans (wideSource n)).unique
  have hname : Scanner.next ⟨17, ' ' :: 'x' :: (moreChars n ++ constructorChars)⟩ =
      (.ok ⟨.identifier, "x", ⟨18, 1⟩⟩, ⟨19, moreChars n ++ constructorChars⟩) := by
    cases n <;> rfl
  have hchars : (wideSource n).toList =
      "class A\x7bfield int x".toList ++ (moreChars n ++ constructorChars) := String.toList_ofList
  rw [Scanner.ofSource, hchars]
  have hrest := scans_more scans_constructor n 19
  simp only [wideTokens, List.append_assoc, List.cons_append]
  exact .token rfl nofun (.token rfl nofun (.token rfl nofun (.token rfl nofun (.token rfl nofun
    (.token hname nofun hrest)))))

/-- The names that are written behind some bytes. -/
def moreNames (k : Nat) : Nat → List Name
  | 0 => []
  | n + 1 => ⟨"x", ⟨k + 2, 1⟩⟩ :: moreNames (k + 3) n

theorem moreNames_length (k n : Nat) : (moreNames k n).length = n := by
  induction n generalizing k with
  | zero => rfl
  | succ n ih => rw [moreNames, List.length_cons, ih]

theorem isName_identifier (n : Name) : IsName [⟨.identifier, n.text, n.span⟩] n :=
  .token (t := ⟨.identifier, n.text, n.span⟩) rfl

theorem separated_more (m : Name) (k n : Nat) :
    Separated IsName (⟨.identifier, m.text, m.span⟩ :: moreTokens k n) (m :: moreNames k n) := by
  induction n generalizing m k with
  | zero => exact .one (isName_identifier m)
  | succ n ih => exact .cons (isName_identifier m) rfl (ih ⟨"x", ⟨k + 2, 1⟩⟩ (k + 3))

/-- The constructor of a wide source, behind some bytes. -/
def wideConstructor (k : Nat) : Subroutine :=
  ⟨.constructor, some (.object "A"), ⟨"new", ⟨k + 15, 3⟩⟩, [],
    ⟨[], [.ret (some (.operand [] (.word .this)))]⟩⟩

theorem constructorTokens_isSubroutine (k : Nat) :
    IsSubroutine (constructorTokens k) (wideConstructor k) := by
  have hthis : IsExpr [⟨.keyword .this, "this", ⟨k + 28, 4⟩⟩] (.operand [] (.word .this)) :=
    .row (.term .nil (.word rfl)) .nil
  have hstmt : IsStmt [⟨.keyword .returnStmt, "return", ⟨k + 21, 6⟩⟩,
      ⟨.keyword .this, "this", ⟨k + 28, 4⟩⟩, ⟨.symbol .semicolon, ";", ⟨k + 32, 1⟩⟩]
      (.ret (some (.operand [] (.word .this)))) :=
    .retValue rfl hthis rfl
  have hbody : IsBody [⟨.symbol .leftBrace, "\x7b", ⟨k + 20, 1⟩⟩,
      ⟨.keyword .returnStmt, "return", ⟨k + 21, 6⟩⟩, ⟨.keyword .this, "this", ⟨k + 28, 4⟩⟩,
      ⟨.symbol .semicolon, ";", ⟨k + 32, 1⟩⟩, ⟨.symbol .rightBrace, "\x7d", ⟨k + 33, 1⟩⟩]
      ⟨[], [.ret (some (.operand [] (.word .this)))]⟩ :=
    .braces rfl .nil (.cons hstmt .nil) rfl
  exact .declared rfl (.type (.object (t := ⟨.identifier, "A", ⟨k + 13, 1⟩⟩) rfl))
    (isName_identifier ⟨"new", ⟨k + 15, 3⟩⟩) (.none rfl rfl) hbody

theorem wideTokens_isClass (n : Nat) : IsClass (wideTokens n) (⟨"A", ⟨6, 1⟩⟩,
    [.vars ⟨.field, .int, ⟨"x", ⟨18, 1⟩⟩ :: moreNames 19 n⟩,
      .subroutine (wideConstructor (19 + 3 * n))]) := by
  have hvars : IsClassVariables (⟨.keyword .field, "field", ⟨8, 5⟩⟩ ::
      ([⟨.keyword .int, "int", ⟨14, 3⟩⟩] ++ ((⟨.identifier, "x", ⟨18, 1⟩⟩ :: moreTokens 19 n) ++
        [⟨.symbol .semicolon, ";", ⟨19 + 3 * n, 1⟩⟩])))
      ⟨.field, .int, ⟨"x", ⟨18, 1⟩⟩ :: moreNames 19 n⟩ :=
    .line rfl (.int rfl) (separated_more ⟨"x", ⟨18, 1⟩⟩ 19 n) rfl
  have hmembers := Repeated.cons (IsMember.vars hvars)
    (.cons (.subroutine (constructorTokens_isSubroutine (19 + 3 * n))) .nil)
  have hclass := IsClass.declared (k := ⟨.keyword .classDecl, "class", ⟨0, 5⟩⟩) rfl
    (isName_identifier ⟨"A", ⟨6, 1⟩⟩)
    (.braces (l := ⟨.symbol .leftBrace, "\x7b", ⟨7, 1⟩⟩)
      (r := ⟨.symbol .rightBrace, "\x7d", ⟨19 + 3 * n + 34, 1⟩⟩) rfl hmembers rfl)
  simpa [wideTokens] using hclass

/-- A class with any number of fields and a constructor can be written. -/
theorem wideSource_parse (n : Nat) : ∃ new fields, new.text = "new" ∧ fields.length = n + 1 ∧
    (parse (wideSource n)).outcome = .ok (wideClass new fields) := by
  obtain ⟨htokens, hfault⟩ := wideSource_tokens n
  obtain ⟨ts, eof, hts, -, hparse, -⟩ := parse_ok_iff (wideSource n) hfault
  obtain ⟨rfl, -⟩ := List.append_inj' (htokens.symm.trans hts) rfl
  refine ⟨⟨"new", ⟨19 + 3 * n + 15, 3⟩⟩, ⟨"x", ⟨18, 1⟩⟩ :: moreNames 19 n, rfl, ?_, ?_⟩
  · rw [List.length_cons, moreNames_length]
  · exact (hparse _).mpr ⟨_, _, wideTokens_isClass n, rfl⟩

/-- As long as there are numbers for its fields such a source compiles, and its constructor asks for
an object of their number, whether or not the machine has that constant. -/
theorem wideSource_compile (o : Options) {n : Nat} (h : n < maxVariables) :
    (compile o (wideSource n)).outcome = .ok (listing [.function "A.new" 0, pushConstant (n + 1),
      .call "Memory.alloc" 1, .pop .pointer 0, .push .pointer 0, .ret]) := by
  obtain ⟨new, fields, hnew, hfields, hparse⟩ := wideSource_parse n
  have hle : fields.length ≤ maxVariables := by omega
  have houtput := wideClass_output new hle o
  rw [hnew, hfields] at houtput
  exact compile_ok_iff.mpr ⟨_, hparse, by rw [houtput]; rfl, by rw [houtput]; rfl⟩

/-- With one field more than the machine has constants, a source compiles to a listing with a constant
that the machine does not take. -/
theorem wideSource_exceeds :
    (compile .standard (wideSource 32767)).outcome =
        .ok ("function A.new 0\n" ++ "push constant 32768\n" ++ "call Memory.alloc 1\n" ++
          "pop pointer 0\n" ++ "push pointer 0\n" ++ "return\n") ∧
      maxConstant < 32768 := by
  rw [wideSource_compile .standard (by decide)]
  exact ⟨rfl, by decide⟩

end JackCompiler
