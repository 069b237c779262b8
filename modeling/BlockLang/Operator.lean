/-!
# Operators

Two operands are joined by one of thirteen operators, which fall into four families. A family
decides which operand types an operator takes and what comes out (`Typing/Rule.lean`); inside a
family the operators differ in their text only.
-/

namespace BlockLang

/-- Operators that follow one typing rule. -/
inductive OpFamily where
  | arithmetic
  | comparison
  | equality
  | logical
deriving DecidableEq

/-- The word for a family in messages. -/
def OpFamily.word : OpFamily → String
  | .arithmetic => "arithmetic"
  | .comparison => "comparison"
  | .equality => "equality"
  | .logical => "logical"

/-- An operator on two operands. -/
inductive BinaryOp where
  | add
  | sub
  | mul
  | div
  | rem
  | lt
  | le
  | gt
  | ge
  | eq
  | ne
  | and
  | or
deriving DecidableEq

/-- The family of an operator. -/
def BinaryOp.family : BinaryOp → OpFamily
  | add | sub | mul | div | rem => .arithmetic
  | lt | le | gt | ge => .comparison
  | eq | ne => .equality
  | and | or => .logical

/-- The sign of an operator. -/
def BinaryOp.text : BinaryOp → String
  | add => "+"
  | sub => "-"
  | mul => "*"
  | div => "/"
  | rem => "%"
  | lt => "<"
  | le => "<="
  | gt => ">"
  | ge => ">="
  | eq => "=="
  | ne => "!="
  | and => "&&"
  | or => "||"

/-- The operators of a family, in their customary order. -/
def OpFamily.operators : OpFamily → List BinaryOp
  | .arithmetic => [.add, .sub, .mul, .div, .rem]
  | .comparison => [.lt, .le, .gt, .ge]
  | .equality => [.eq, .ne]
  | .logical => [.and, .or]

/-- The operator of a family with the given sign. -/
def OpFamily.find? (family : OpFamily) (sign : String) : Option BinaryOp :=
  family.operators.find? (fun op => op.text == sign)

/-- A family lists exactly its own operators. -/
theorem OpFamily.mem_operators_iff {family : OpFamily} {op : BinaryOp} :
    op ∈ family.operators ↔ op.family = family := by
  cases family <;> cases op <;> simp [operators, BinaryOp.family]

/-- An operator is found in its family under its sign. -/
theorem OpFamily.find?_text (op : BinaryOp) : op.family.find? op.text = some op := by
  cases op <;> decide

end BlockLang
