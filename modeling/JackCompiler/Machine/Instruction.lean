import JackCompiler.Scope.Kind

/-!
# Instructions of the stack machine

The machine works on one stack and eight segments of memory. A program for it is a list of
instructions, written one per line.
-/

namespace JackCompiler

/-- A segment of memory. -/
inductive Segment where
  | constant | locals | argument | static | this | that | pointer | temp
deriving DecidableEq, Repr

/-- The name of a segment in an instruction. -/
def Segment.text : Segment → String
  | constant => "constant"
  | locals => "local"
  | argument => "argument"
  | static => "static"
  | this => "this"
  | that => "that"
  | pointer => "pointer"
  | temp => "temp"

/-- All segments. -/
def Segment.all : List Segment :=
  [constant, locals, argument, static, this, that, pointer, temp]

/-- The segment of a name in an instruction. -/
def Segment.ofText? (t : String) : Option Segment :=
  all.find? fun s => s.text == t

/-- The segment that holds the variables of a kind. Fields live in the object that the first pointer
cell anchors. -/
def VariableKind.segment : VariableKind → Segment
  | .static => .static
  | .field => .this
  | .argument => .argument
  | .localVar => .locals

/-- Variables of different kinds never share a segment. -/
theorem VariableKind.segment_injective {a b : VariableKind} (h : a.segment = b.segment) : a = b := by
  cases a <;> cases b <;> first | rfl | cases h

/-- An arithmetic or logical command on the top of the stack. -/
inductive Command where
  | add | sub | neg | eq | gt | lt | and | or | not
deriving DecidableEq, Repr

/-- The word of a command. -/
def Command.text : Command → String
  | add => "add"
  | sub => "sub"
  | neg => "neg"
  | eq => "eq"
  | gt => "gt"
  | lt => "lt"
  | and => "and"
  | or => "or"
  | not => "not"

/-- All commands. -/
def Command.all : List Command :=
  [add, sub, neg, eq, gt, lt, and, or, not]

/-- The command of a word. -/
def Command.ofText? (t : String) : Option Command :=
  all.find? fun c => c.text == t

/-- The place that a numbered label marks in a conditional or a loop. -/
inductive LabelStem where
  | ifTrue | ifFalse | ifEnd | whileStart | whileEnd
deriving DecidableEq, Repr

/-- The text of a numbered label before its number. -/
def LabelStem.text : LabelStem → String
  | ifTrue => "IF_TRUE"
  | ifFalse => "IF_FALSE"
  | ifEnd => "IF_END"
  | whileStart => "WHILE_EXP"
  | whileEnd => "WHILE_END"

/-- A label: a place in a numbered statement, or any name. -/
inductive Label where
  | numbered (stem : LabelStem) (number : Nat)
  | named (name : String)
deriving DecidableEq, Repr

/-- The text of a label. -/
def Label.text : Label → String
  | numbered stem number => stem.text ++ toString number
  | named name => name

/-- An instruction of the machine. -/
inductive Instruction where
  | push (segment : Segment) (index : UInt16)
  | pop (segment : Segment) (index : UInt16)
  | command (c : Command)
  | label (l : Label)
  | goto (l : Label)
  | ifGoto (l : Label)
  | call (name : String) (args : Nat)
  | function (name : String) (locals : Nat)
  | ret
deriving DecidableEq, Repr

/-- The line of an instruction, without its end. -/
def Instruction.text : Instruction → String
  | push segment index => "push " ++ segment.text ++ " " ++ toString index.toNat
  | pop segment index => "pop " ++ segment.text ++ " " ++ toString index.toNat
  | command c => c.text
  | label l => "label " ++ l.text
  | goto l => "goto " ++ l.text
  | ifGoto l => "if-goto " ++ l.text
  | call name args => "call " ++ name ++ " " ++ toString args
  | function name locals => "function " ++ name ++ " " ++ toString locals
  | ret => "return"

/-- The line of an instruction, with its end. -/
def Instruction.line (i : Instruction) : String :=
  i.text ++ "\n"

/-- The text of a list of instructions, one line each. -/
def listing (code : List Instruction) : String :=
  code.foldl (fun text i => text ++ i.line) ""

end JackCompiler
