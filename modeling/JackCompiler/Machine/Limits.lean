/-!
# Limits of the target machine

Words of the machine have sixteen bits. Constants use fifteen of them, and the variables of one kind
in one scope are numbered by words.
-/

namespace JackCompiler

/-- The largest constant that the machine can push. -/
def maxConstant : Nat := 32767

/-- The most variables of one kind that a scope can hold. -/
def maxVariables : Nat := 65535

end JackCompiler
