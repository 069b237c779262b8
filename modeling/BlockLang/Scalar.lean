/-!
# Scalars

Integers are signed, two's complement, of 8, 16, 32 or 64 bits; floats are IEEE, of 32 or 64 bits.
A width is an enumeration and not a number, so an unsupported width cannot be written down; numbers
enter only through `ofBits?`.

Literals are compared with the range of a width as unbounded integers. No literal wraps on its way
into a program.

## Floats as bit patterns

A float literal is kept as its bits, so that a NaN keeps its payload and a zero its sign. The top
bit is the sign and the rest is the magnitude; the magnitudes above that of infinity are the NaNs.
Equality is that of IEEE numbers and not that of bit patterns: **a NaN differs from everything,
itself included, and the two zeros are equal**.
-/

namespace BlockLang

/-! ## Integers -/

/-- Width of a signed integer type. -/
inductive IntWidth where
  | w8
  | w16
  | w32
  | w64
deriving DecidableEq

namespace IntWidth

/-- Number of bits. -/
def bits : IntWidth → Nat
  | w8 => 8
  | w16 => 16
  | w32 => 32
  | w64 => 64

/-- The width of that many bits, if there is one. -/
def ofBits? : Nat → Option IntWidth
  | 8 => some w8
  | 16 => some w16
  | 32 => some w32
  | 64 => some w64
  | _ => none

/-- A width is found under its own number of bits. -/
@[simp] theorem ofBits?_bits (w : IntWidth) : ofBits? w.bits = some w := by
  cases w <;> rfl

/-- Half the number of representable values. -/
def half (w : IntWidth) : Nat := Nat.pow 2 (w.bits - 1)

/-- Smallest representable value, `-2^(bits-1)`. -/
def lowest (w : IntWidth) : Int := -(w.half : Int)

/-- Largest representable value, `2^(bits-1) - 1`. -/
def highest (w : IntWidth) : Int := (w.half : Int) - 1

/-- Whether a value is representable. -/
def contains (w : IntWidth) (value : Int) : Bool :=
  decide (w.lowest ≤ value) && decide (value ≤ w.highest)

theorem contains_iff {w : IntWidth} {value : Int} :
    w.contains value = true ↔ w.lowest ≤ value ∧ value ≤ w.highest := by
  simp [contains]

end IntWidth

/-! ## Floats -/

/-- Width of an IEEE floating-point type. -/
inductive FloatWidth where
  | w32
  | w64
deriving DecidableEq

namespace FloatWidth

/-- Number of bits. -/
def bits : FloatWidth → Nat
  | w32 => 32
  | w64 => 64

/-- The width of that many bits, if there is one. -/
def ofBits? : Nat → Option FloatWidth
  | 32 => some w32
  | 64 => some w64
  | _ => none

/-- A width is found under its own number of bits. -/
@[simp] theorem ofBits?_bits (w : FloatWidth) : ofBits? w.bits = some w := by
  cases w <;> rfl

/-! ## Bit patterns of floats -/

/-- The place of the sign bit, which bounds the magnitudes from above. -/
def signBit : FloatWidth → Nat
  | w32 => 0x80000000
  | w64 => 0x8000000000000000

/-- The magnitude of infinity: exponent all ones, fraction zero. -/
def infinity : FloatWidth → Nat
  | w32 => 0x7f800000
  | w64 => 0x7ff0000000000000

/-- The bits below the sign. -/
def magnitude (w : FloatWidth) (pattern : Nat) : Nat := pattern % w.signBit

/-- Whether the pattern is no number. -/
def isNaN (w : FloatWidth) (pattern : Nat) : Bool := decide (w.infinity < w.magnitude pattern)

/-- Equality of the numbers that two patterns stand for. -/
def equal (w : FloatWidth) (a b : Nat) : Bool :=
  !w.isNaN a && !w.isNaN b && (a == b || (w.magnitude a == 0 && w.magnitude b == 0))

/-- A pattern equals itself exactly when it is a number. -/
theorem equal_self (w : FloatWidth) (a : Nat) : w.equal a a = !w.isNaN a := by
  simp [equal]

/-- A pattern in lowercase hexadecimal, padded to the full width. -/
def hex (w : FloatWidth) (pattern : Nat) : String :=
  let digits := Nat.toDigits 16 pattern
  "0x" ++ String.ofList (List.replicate (w.bits / 4 - digits.length) '0' ++ digits)

end FloatWidth

end BlockLang
