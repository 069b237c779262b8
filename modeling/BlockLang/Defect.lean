import BlockLang.Ident
import BlockLang.Operator
import BlockLang.Ty.Text

/-!
# Structural defects

What can be wrong with a type or a tree before any typing: a bad name, a literal out of range, an
unknown operator sign, a statement that is never reached, a repeated or absent field, a width that
does not exist. A defect holds its cause; `Defect.message` is the only place where causes are put
into words.
-/

namespace BlockLang

/-- A reason to refuse a type or a tree. -/
inductive Defect where
  /-- The text is not of the form of a name. -/
  | invalidName (role : NameRole) (name : String)
  /-- The literal is not representable in the width. -/
  | outOfRange (width : IntWidth) (value : Int)
  /-- No operator of the family has the sign. -/
  | unknownOperator (family : OpFamily) (sign : String)
  /-- The statement at the position follows a return in the same block. -/
  | unreachable (position : Nat)
  /-- The field name stands a second time. -/
  | duplicateField (name : String)
  /-- The selector picks no element of the type. -/
  | noElement (ty : Ty) (selector : Selector)
  /-- There is no float of that many bits. -/
  | floatWidth (bits : Nat)
  /-- There is no integer of that many bits. -/
  | intWidth (bits : Nat)
deriving DecidableEq

/-- A defect in words. -/
def Defect.message : Defect → String
  | invalidName role name =>
    "invalid " ++ role.word ++ " name `" ++ name ++
      "`: expected a lowercase letter followed by letters, digits or `_`"
  | outOfRange width value =>
    "integer literal " ++ value.repr ++ " does not fit in " ++ (Ty.int width).text
  | unknownOperator family sign => "unknown " ++ family.word ++ " operator `" ++ sign ++ "`"
  | unreachable position =>
    "statement " ++ position.repr ++ " is unreachable: it follows a return in the same block"
  | duplicateField name => "duplicate struct field `" ++ name ++ "`"
  | noElement ty selector => "type " ++ ty.text ++ " has no field " ++ selector.text
  | floatWidth bits => "unsupported float width " ++ bits.repr ++ ": expected 32 or 64"
  | intWidth bits => "unsupported integer width " ++ bits.repr ++ ": expected 8, 16, 32 or 64"

/-- Accepts what no defect was found in. -/
def Defect.verdict : Option Defect → Except Defect Unit
  | none => .ok ()
  | some d => .error d

/-! ## Names and operators -/

/-- What is wrong with a name. -/
def Ident.defect? (role : NameRole) (name : String) : Option Defect :=
  if Ident.isValid name then none else some (.invalidName role name)

/-- Accepts a text of the form of a name. -/
def Ident.check (role : NameRole) (name : String) : Except Defect Unit :=
  Defect.verdict (Ident.defect? role name)

/-- The operator of a family with the given sign. -/
def OpFamily.read (family : OpFamily) (sign : String) : Except Defect BinaryOp :=
  match family.find? sign with
  | some op => .ok op
  | none => .error (.unknownOperator family sign)

end BlockLang
