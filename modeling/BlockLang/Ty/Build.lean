import BlockLang.Defect

/-!
# Building types

The constructors that can refuse: widths given as numbers, and structs, whose field names have to
differ. The checks of a literal against a type and of a selector against a type are here too, as
they answer with the same defects.

## Structs

The fields of a struct are entered into an index of positions one after the other, and the first
name that has a position already is refused. The index is kept with the fields; equality is that of
the fields and does not look at it.
-/

namespace BlockLang

/-- The integer width of that many bits. -/
def IntWidth.ofBits (bits : Nat) : Except Defect IntWidth :=
  match ofBits? bits with
  | some w => .ok w
  | none => .error (.intWidth bits)

/-- The float width of that many bits. -/
def FloatWidth.ofBits (bits : Nat) : Except Defect FloatWidth :=
  match ofBits? bits with
  | some w => .ok w
  | none => .error (.floatWidth bits)

/-! ## Structs -/

/-- Positions by field name. -/
structure FieldIndex where
  /-- The entries, the latest first. -/
  entries : List (String × Nat) := []

namespace FieldIndex

/-- The position of a name. -/
def find? (index : FieldIndex) (name : String) : Option Nat := index.entries.lookup name

/-- Enters the position of a name in place of the one that it had, which is given back. -/
def insert (index : FieldIndex) (name : String) (position : Nat) : Option Nat × FieldIndex :=
  (index.find? name, ⟨(name, position) :: index.entries⟩)

/-- Enters names at the given position and those behind it, and refuses a name that had a position
before. -/
def enter (index : FieldIndex) (position : Nat) : List String → Except Defect FieldIndex
  | [] => .ok index
  | name :: names =>
    match index.insert name position with
    | (some _, _) => .error (.duplicateField name)
    | (none, larger) => larger.enter (position + 1) names

end FieldIndex

/-- A struct type: its fields in order, and the index of their names. -/
structure StructTy where
  fields : List (String × Ty)
  index : FieldIndex

namespace StructTy

/-- The struct type with the given fields, whose names have to differ. -/
def ofFields (fields : List (String × Ty)) : Except Defect StructTy :=
  (FieldIndex.enter {} 0 (fields.map Prod.fst)).map fun index => ⟨fields, index⟩

/-- The position of a field, which the index knows. -/
def fieldIndex? (struct : StructTy) (name : String) : Option Nat := struct.index.find? name

/-- Whether two struct types have the same fields. -/
def same (s t : StructTy) : Bool := Ty.sameFields s.fields t.fields

end StructTy

namespace Ty

/-- A struct type with the given fields, whose names have to differ. -/
def ofFields (fields : List (String × Ty)) : Except Defect Ty :=
  (StructTy.ofFields fields).map fun built => struct built.fields

/-! ## Literals and selectors -/

/-- What is wrong with an integer literal of a type. Only integer types have a range. -/
def rangeDefect? : Ty → Int → Option Defect
  | int w, value => if w.contains value then none else some (.outOfRange w value)
  | _, _ => none

/-- Accepts an integer literal that is in the range of a type. -/
def checkRange (t : Ty) (value : Int) : Except Defect Unit :=
  Defect.verdict (t.rangeDefect? value)

/-- The position and type of the element that a selector picks. -/
def select (t : Ty) (selector : Selector) : Except Defect (Nat × Ty) :=
  match t.element? selector with
  | some found => .ok found
  | none => .error (.noElement t selector)

end Ty

end BlockLang
