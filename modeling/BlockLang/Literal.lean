import BlockLang.Ty.Build

/-!
# Literals

Booleans, integers of a width and floats. An integer is held in 64 bits whatever its width, so the
form admits integers that their width cannot represent. `Literal.ofInt` is the constructor that
refuses them, and `Literal.defect?` finds one that came in another way.

Floats are bit patterns (`Scalar.lean`).
-/

namespace BlockLang

/-- A constant value. -/
inductive Literal where
  | bool (value : Bool)
  | int (width : IntWidth) (value : Int64)
  | float32 (pattern : UInt32)
  | float64 (pattern : UInt64)

namespace Literal

/-- The type of a literal. -/
def ty : Literal → Ty
  | bool _ => .bool
  | int w _ => .int w
  | float32 _ => .float .w32
  | float64 _ => .float .w64

/-- The integer of a width, which has to be representable in it. -/
def ofInt (width : IntWidth) (value : Int) : Except Defect Literal :=
  ((Ty.int width).checkRange value).map fun _ => int width (Int64.ofInt value)

/-- What is wrong with a literal: only an integer can be out of range. -/
def defect? : Literal → Option Defect
  | int w v => (Ty.int w).rangeDefect? v.toInt
  | _ => none

/-- Equality of values: integers also have to agree in width, and floats are compared as numbers. -/
def equal : Literal → Literal → Bool
  | bool a, bool b => a == b
  | int v a, int w b => v == w && a == b
  | float32 a, float32 b => FloatWidth.w32.equal a.toNat b.toNat
  | float64 a, float64 b => FloatWidth.w64.equal a.toNat b.toNat
  | _, _ => false

/-- A literal in words, a float by its bits. -/
def label : Literal → String
  | bool true => "bool true"
  | bool false => "bool false"
  | int _ v => "int " ++ v.toInt.repr
  | float32 p => "float " ++ FloatWidth.w32.hex p.toNat
  | float64 p => "float " ++ FloatWidth.w64.hex p.toNat

end Literal

end BlockLang
