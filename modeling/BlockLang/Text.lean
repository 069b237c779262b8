/-!
# Texts of the environment

Two readings of a text that is given from outside.

* `Blank.trim` takes away the blanks at the ends. Blanks are the characters with the Unicode
  property `White_Space`, twenty-five in ten ranges of code points.
* `Byte.read` reads a number of one byte in decimal. One `+` may stand in front; then there is at
  least one ASCII digit and nothing else, and the number is at most 255. Leading zeros are digits
  like all others. The reading stops as soon as the number is too large, so it takes no more room
  for a long text than for a short one.
-/

namespace BlockLang

/-! ## Blanks -/

namespace Blank

/-- The code points of blanks: first and last of each range, in ascending order. -/
def ranges : List (Nat × Nat) :=
  [(0x09, 0x0D), (0x20, 0x20), (0x85, 0x85), (0xA0, 0xA0), (0x1680, 0x1680), (0x2000, 0x200A),
    (0x2028, 0x2029), (0x202F, 0x202F), (0x205F, 0x205F), (0x3000, 0x3000)]

/-- Whether a character is a blank. -/
def isBlank (c : Char) : Bool :=
  ranges.any fun range => decide (range.1 ≤ c.toNat) && decide (c.toNat ≤ range.2)

/-- A text without the blanks in front of it. -/
def trimLeft (cs : List Char) : List Char := cs.dropWhile isBlank

/-- A text without the blanks behind it. -/
def trimRight (cs : List Char) : List Char := (cs.reverse.dropWhile isBlank).reverse

/-- A text without the blanks at its ends. -/
def trim (cs : List Char) : List Char := trimRight (trimLeft cs)

/-- The ranges hold twenty-five code points. -/
example : (ranges.map fun range => range.2 - range.1 + 1).sum = 25 := by decide

/-- The ranges are in ascending order and do not touch. -/
example : ranges.Pairwise fun a b => a.2 < b.1 := by decide

/-- Blanks inside a text stay. -/
example : trim [' ', 'a', ' ', 'b', '\t'] = ['a', ' ', 'b'] := by decide

end Blank

/-! ## Numbers of one byte -/

namespace Byte

/-- The number that the digits give when they follow those already read as `value`. -/
def readDigits (value : Nat) : List Char → Option Nat
  | [] => some value
  | c :: cs =>
    if c.isDigit then
      let next := value * 10 + (c.toNat - '0'.toNat)
      if next ≤ 255 then readDigits next cs else none
    else none

/-- The number that one or more digits give. -/
def readUnsigned : List Char → Option Nat
  | [] => none
  | c :: cs => readDigits 0 (c :: cs)

/-- The number that a text gives, with or without a plus sign. -/
def read : List Char → Option Nat
  | '+' :: cs => readUnsigned cs
  | cs => readUnsigned cs

end Byte

end BlockLang
