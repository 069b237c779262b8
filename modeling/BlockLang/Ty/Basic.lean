import BlockLang.Scalar

/-!
# Types

Scalars are `Bool`, integers and floats; aggregates are arrays of fixed length and structs with
ordered, named fields; a pointer refers to a value of one type. Types are plain values and are equal
exactly when they are built alike: two struct types with the same ordered fields are one type.

The type itself admits structs with repeated field names. `Ty.ofFields` (`Ty/Build.lean`) is the
constructor that refuses them.

## Equality

`same` walks both types once. `same_iff` says that it decides equality, and the instance is taken
from it.

## Elements

A selector picks one element of an aggregate: by position, or by field name. An array has elements
at the positions below its length, all of one type; a struct has an element per field, at the
field's position and under its name. No other type has elements.

`element?` is the one definition of what a selector picks. Those who refuse a selector
(`Ty/Build.lean`, `Typing/Rule.lean`) ask it and only choose the error.
-/

namespace BlockLang

/-- A type of values. -/
inductive Ty where
  | bool
  | int (width : IntWidth)
  | float (width : FloatWidth)
  | array (element : Ty) (length : Nat)
  | struct (fields : List (String × Ty))
  | pointer (pointee : Ty)

namespace Ty

instance : Inhabited Ty := ⟨bool⟩

/-! ## Equality -/

mutual

/-- Whether two types are built alike. -/
def same : Ty → Ty → Bool
  | bool, bool => true
  | int v, int w => v == w
  | float v, float w => v == w
  | array s m, array t n => m == n && same s t
  | struct fs, struct gs => sameFields fs gs
  | pointer s, pointer t => same s t
  | _, _ => false

/-- Whether two field lists agree, position by position. -/
def sameFields : List (String × Ty) → List (String × Ty) → Bool
  | [], [] => true
  | (m, s) :: fs, (n, t) :: gs => m == n && same s t && sameFields fs gs
  | _, _ => false

end

mutual

/-- **`same` decides equality.** -/
theorem same_iff : (s t : Ty) → (same s t = true ↔ s = t)
  | bool, t => by cases t <;> simp [same]
  | int v, t => by cases t <;> simp [same]
  | float v, t => by cases t <;> simp [same]
  | array s m, t => by
    cases t with
    | array t n => simp [same, same_iff s t, and_comm]
    | _ => simp [same]
  | struct fs, t => by
    cases t with
    | struct gs => simp [same, sameFields_iff fs gs]
    | _ => simp [same]
  | pointer s, t => by
    cases t with
    | pointer t => simp [same, same_iff s t]
    | _ => simp [same]

theorem sameFields_iff : (fs gs : List (String × Ty)) → (sameFields fs gs = true ↔ fs = gs)
  | [], gs => by cases gs <;> simp [sameFields]
  | (m, s) :: fs, gs => by
    cases gs with
    | nil => simp [sameFields]
    | cons g gs =>
      obtain ⟨n, t⟩ := g
      simp [sameFields, same_iff s t, sameFields_iff fs gs]

end

instance : DecidableEq Ty := fun s t => decidable_of_iff _ (same_iff s t)

/-! ## Classes of types -/

/-- Whether a type is an integer type. -/
def isInt : Ty → Bool
  | int _ => true
  | _ => false

/-- Whether a type is `Bool`. -/
def isBool : Ty → Bool
  | bool => true
  | _ => false

/-- Whether a type has elements: arrays and structs do, pointers to them do not. -/
def isAggregate : Ty → Bool
  | array _ _ => true
  | struct _ => true
  | _ => false

/-- The width of an integer type. -/
def intWidth? : Ty → Option IntWidth
  | int w => some w
  | _ => none

/-- The type that a pointer refers to. -/
def pointee? : Ty → Option Ty
  | pointer t => some t
  | _ => none

theorem isInt_iff {t : Ty} : t.isInt = true ↔ ∃ w, t = int w := by
  cases t <;> simp [isInt]

theorem isBool_iff {t : Ty} : t.isBool = true ↔ t = bool := by
  cases t <;> simp [isBool]

end Ty

/-! ## Elements of aggregates -/

/-- Picks one element of an aggregate. -/
inductive Selector where
  | index (position : Nat)
  | name (field : String)
deriving DecidableEq

/-- A position in decimal, or a field name between backquotes. -/
def Selector.text : Selector → String
  | index i => Nat.repr i
  | name n => "`" ++ n ++ "`"

namespace Ty

/-- The first position that bears a name. -/
def fieldIndex? (name : String) (fields : List (String × Ty)) : Option Nat :=
  fields.findIdx? (fun field => field.1 == name)

/-- The number of elements of an aggregate. -/
def elementCount? : Ty → Option Nat
  | array _ n => some n
  | struct fs => some fs.length
  | _ => none

/-- The position and type of the element that a selector picks. The search by name stands for the
index that a struct keeps of its fields: for every struct that can be built, both find the same
position (`StructTy.fieldIndex?_eq_search`). -/
def element? : Ty → Selector → Option (Nat × Ty)
  | array t n, .index i => if i < n then some (i, t) else none
  | struct fs, .index i => fs[i]?.map fun field => (i, field.2)
  | struct fs, .name n =>
    (fieldIndex? n fs).bind fun i => fs[i]?.map fun field => (i, field.2)
  | _, _ => none

/-- Aggregates are exactly the types whose elements can be counted. -/
theorem isSome_elementCount? (t : Ty) : t.elementCount?.isSome = t.isAggregate := by
  cases t <;> rfl

end Ty

/-! ## Results of functions -/

/-- What a function gives back: nothing, or one value. -/
inductive ReturnTy where
  | void
  | value (ty : Ty)
deriving DecidableEq

namespace ReturnTy

instance : Inhabited ReturnTy := ⟨void⟩

/-- Whether nothing is given back. -/
def isVoid : ReturnTy → Bool
  | void => true
  | value _ => false

/-- The type of the value given back. -/
def type? : ReturnTy → Option Ty
  | void => none
  | value t => some t

end ReturnTy

end BlockLang
