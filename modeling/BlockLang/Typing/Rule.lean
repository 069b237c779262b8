import BlockLang.Typing.Error

/-!
# Typing rules on types

The rules for one node, once the types of its children are known. They speak about types only, so
they know neither trees nor contexts. There is no coercion anywhere: operands and replacement values
have exactly the type that is asked for.

* arithmetic takes two operands of one integer type and gives that type;
* comparison takes two operands of one integer type and gives `Bool`;
* equality takes two operands of one type, an integer type or `Bool`, and gives `Bool`;
* conjunction, disjunction and negation take and give `Bool`.
-/

namespace BlockLang

/-! ## Operators -/

/-- Whether a family takes operands of these types. -/
def OpFamily.admits (family : OpFamily) (left right : Ty) : Bool :=
  match family with
  | .arithmetic | .comparison => left == right && left.isInt
  | .equality => left == right && (left.isInt || left.isBool)
  | .logical => left.isBool && right.isBool

/-- The type that a family gives for an admitted left operand. -/
def OpFamily.result (family : OpFamily) (left : Ty) : Ty :=
  match family with
  | .arithmetic => left
  | .comparison | .equality | .logical => .bool

/-- The type of two operands joined by an operator. -/
def BinaryOp.apply (op : BinaryOp) (left right : Ty) : Except TypeError Ty :=
  if op.family.admits left right then .ok (op.family.result left)
  else .error (.incompatibleTypes op left right)

namespace Ty

/-- The type of the negation of an operand. -/
def negate (operand : Ty) : Except TypeError Ty :=
  if operand.isBool then .ok bool else .error (.incompatibleOperand operand)

/-! ## Elements and pointers -/

/-- The position and type of the element that a selector picks. -/
def elementAt (t : Ty) (selector : Selector) : Except TypeError (Nat × Ty) :=
  match t.elementCount? with
  | none => .error (.notAggregate t)
  | some count =>
    match t.element? selector with
    | some found => .ok found
    | none =>
      match selector with
      | .index i => .error (.outOfBounds t i count)
      | .name n => .error (.unknownField t n)

/-- The type behind a pointer. -/
def target (t : Ty) : Except TypeError Ty :=
  match t.pointee? with
  | some u => .ok u
  | none => .error (.notPointer t)

/-! ## Agreement -/

/-- Accepts a value of exactly the expected type. -/
def expect (expected found : Ty) : Except TypeError Unit :=
  if found = expected then .ok () else .error (.mismatch expected found)

end Ty

/-- The type of a call that stands where a value is needed. -/
def ReturnTy.asValue (ret : ReturnTy) (name : String) : Except TypeError Ty :=
  match ret with
  | value t => .ok t
  | void => .error (.voidAsValue name)

end BlockLang
