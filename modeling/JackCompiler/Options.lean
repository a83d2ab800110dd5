/-!
# Options of the compiler
-/

namespace JackCompiler

/-- How the labels of conditionals are numbered. -/
inductive IfNumbering where
  /-- Every conditional of a subroutine has a number of its own. -/
  | unique
  /-- Neighbouring conditionals share a number, and one that stands directly in a branch of another
  has the next number. -/
  | nested
deriving DecidableEq, Repr

/-- When the operators of an expression are applied. Operands are pushed from left to right in
either order. -/
inductive OperatorOrder where
  /-- After all operands are pushed, the last operator first. -/
  | deferred
  /-- As soon as the right operand is pushed. -/
  | leftToRight
deriving DecidableEq, Repr

/-- What a user can choose about the code. -/
structure Options where
  ifNumbering : IfNumbering
  operatorOrder : OperatorOrder
deriving DecidableEq, Repr

/-- The options that are in force when nothing is chosen. -/
def Options.standard : Options :=
  ⟨.unique, .deferred⟩

/-- The word for a numbering in a settings document. -/
def IfNumbering.text : IfNumbering → String
  | unique => "unique"
  | nested => "nested"

/-- The numbering that a word stands for. -/
def IfNumbering.ofText? (t : String) : Option IfNumbering :=
  [unique, nested].find? fun n => n.text == t

/-- The word for an order in a settings document. -/
def OperatorOrder.text : OperatorOrder → String
  | deferred => "deferred"
  | leftToRight => "left_to_right"

/-- The order that a word stands for. -/
def OperatorOrder.ofText? (t : String) : Option OperatorOrder :=
  [deferred, leftToRight].find? fun o => o.text == t

/-- A value in a settings document, as far as options are concerned: a word, which may stand alone
or be the only key of a record and belong to nothing, or anything else. -/
inductive Setting where
  | word (text : String)
  | other
deriving DecidableEq, Repr

/-- A settings document: fields by name, values by position, or anything else. -/
inductive Settings where
  | fields (entries : List (String × Setting))
  | sequence (values : List Setting)
  | other
deriving DecidableEq, Repr

/-- The word of a setting. -/
def Setting.word? : Setting → Option String
  | word text => some text
  | other => none

/-- Read options from their two values. -/
def Options.ofSettings? (ifNumbering operatorOrder : Setting) : Option Options := do
  let n ← IfNumbering.ofText? (← ifNumbering.word?)
  let o ← OperatorOrder.ofText? (← operatorOrder.word?)
  return ⟨n, o⟩

/-- Read options from a document. Both have to be there; other fields do not matter. -/
def Settings.options? : Settings → Option Options
  | fields entries => do
      Options.ofSettings? (← entries.lookup "if_labels") (← entries.lookup "operator_order")
  | sequence [ifNumbering, operatorOrder] => Options.ofSettings? ifNumbering operatorOrder
  | _ => none

/-- Write options as the fields of a document. -/
def Options.settings (o : Options) : Settings :=
  .fields
    [("if_labels", .word o.ifNumbering.text), ("operator_order", .word o.operatorOrder.text)]

end JackCompiler
