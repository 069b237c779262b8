import BlockLang.Operator
import BlockLang.Ty.Text

/-!
# Typing errors

What typing can object to. As with structural defects (`Defect.lean`), an error holds its cause, and
`TypeError.message` alone puts causes into words. Every type in an error is the type itself and not
its text.
-/

namespace BlockLang

/-- A reason to refuse a body or an expression. -/
inductive TypeError where
  /-- A variable is read or assigned where it is not declared. -/
  | undeclaredVariable (name : String)
  /-- A variable is introduced where it is declared already. -/
  | redeclared (name : String)
  /-- A parameter stands twice, or is declared before the function is entered. -/
  | duplicateParameter (name : String)
  /-- The operator does not take operands of these types. -/
  | incompatibleTypes (op : BinaryOp) (left right : Ty)
  /-- Negation does not take an operand of this type. -/
  | incompatibleOperand (operand : Ty)
  /-- A value of another type was expected. -/
  | mismatch (expected found : Ty)
  /-- There is no signature for the name. -/
  | undeclaredFunction (name : String)
  /-- The call has another number of arguments than the function has parameters. -/
  | arityMismatch (name : String) (expected found : Nat)
  /-- The argument at the position has another type than the parameter. -/
  | argumentMismatch (name : String) (position : Nat) (expected found : Ty)
  /-- The call gives back nothing, and stands where a value is needed. -/
  | voidAsValue (name : String)
  /-- A value is returned although nothing is to be given back. -/
  | valueFromVoid
  /-- Nothing is returned although a value is to be given back. -/
  | missingValue (expected : Ty)
  /-- A value of another type is to be given back. -/
  | returnMismatch (expected found : Ty)
  /-- A condition is not of type `Bool`. -/
  | conditionNotBool (found : Ty)
  /-- The type has no elements. -/
  | notAggregate (ty : Ty)
  /-- The type is no pointer. -/
  | notPointer (ty : Ty)
  /-- The struct has no field of that name. -/
  | unknownField (ty : Ty) (field : String)
  /-- The aggregate has no element at the position. -/
  | outOfBounds (ty : Ty) (position count : Nat)
deriving DecidableEq

/-- An error in words. -/
def TypeError.message : TypeError → String
  | undeclaredVariable name => "use of undeclared variable `" ++ name ++ "`"
  | redeclared name => "variable `" ++ name ++ "` is already declared in this scope"
  | duplicateParameter name => "parameter `" ++ name ++ "` appears more than once"
  | incompatibleTypes op left right =>
    "operator `" ++ op.text ++ "` cannot be applied to " ++ left.text ++ " and " ++ right.text
  | incompatibleOperand operand => "operator `!` cannot be applied to " ++ operand.text
  | mismatch expected found => "expected " ++ expected.text ++ ", found " ++ found.text
  | undeclaredFunction name => "call to undeclared function `" ++ name ++ "`"
  | arityMismatch name expected found =>
    "function `" ++ name ++ "` takes " ++ expected.repr ++ " argument(s) but " ++ found.repr ++
      " were supplied"
  | argumentMismatch name position expected found =>
    "argument " ++ position.repr ++ " of `" ++ name ++ "`: expected " ++ expected.text ++
      ", found " ++ found.text
  | voidAsValue name => "function `" ++ name ++ "` returns nothing and cannot be used as a value"
  | valueFromVoid => "cannot return a value from a function returning ()"
  | missingValue expected => "missing return value: function returns " ++ expected.text
  | returnMismatch expected found =>
    "return type mismatch: expected " ++ expected.text ++ ", found " ++ found.text
  | conditionNotBool found => "condition must be Bool, found " ++ found.text
  | notAggregate ty => ty.text ++ " is not an array or struct"
  | notPointer ty => "cannot dereference " ++ ty.text ++ ": not a pointer"
  | unknownField ty field => "type " ++ ty.text ++ " has no field `" ++ field ++ "`"
  | outOfBounds ty position count =>
    "index " ++ position.repr ++ " out of bounds for " ++ ty.text ++ " with " ++ count.repr ++
      " element(s)"

end BlockLang
