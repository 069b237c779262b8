import BlockLang.Ty.Basic

/-!
# The text of a type

`Bool`, `Int32`, `Float64`, `[Int8; 3]`, `{a: Int32, b: Int8}`, `*Bool`. Nothing is escaped, so a
field name stands in the text as it is. In character literals the braces are `\x7b` and `\x7d`.

## Form

`write t rest` is the text of `t` followed by `rest`. Writing in front of what follows keeps the
work linear in the text, and lets a law about one type speak about everything that comes after it.
-/

namespace BlockLang

/-- A number in decimal, followed by `rest`. -/
def writeNat (n : Nat) (rest : List Char) : List Char := Nat.toDigits 10 n ++ rest

namespace Ty

mutual

/-- The text of a type, followed by `rest`. -/
def write : Ty → List Char → List Char
  | bool, rest => "Bool".toList ++ rest
  | int w, rest => "Int".toList ++ writeNat w.bits rest
  | float w, rest => "Float".toList ++ writeNat w.bits rest
  | array t n, rest => '[' :: write t (';' :: ' ' :: writeNat n (']' :: rest))
  | struct fs, rest => '\x7b' :: writeFields fs ('\x7d' :: rest)
  | pointer t, rest => '*' :: write t rest

/-- Named fields with commas between them, followed by `rest`. -/
def writeFields : List (String × Ty) → List Char → List Char
  | [], rest => rest
  | [(n, t)], rest => n.toList ++ ':' :: ' ' :: write t rest
  | (n, t) :: f :: fs, rest =>
    n.toList ++ ':' :: ' ' :: write t (',' :: ' ' :: writeFields (f :: fs) rest)

end

/-- Types with commas between them, followed by `rest`. -/
def writeList : List Ty → List Char → List Char
  | [], rest => rest
  | [t], rest => t.write rest
  | t :: u :: ts, rest => t.write (',' :: ' ' :: writeList (u :: ts) rest)

/-- The text of a type. -/
def text (t : Ty) : String := String.ofList (t.write [])

end Ty

namespace ReturnTy

/-- The text of a result, `()` for nothing, followed by `rest`. -/
def write : ReturnTy → List Char → List Char
  | void, rest => '(' :: ')' :: rest
  | value t, rest => t.write rest

/-- The text of a result. -/
def text (r : ReturnTy) : String := String.ofList (r.write [])

end ReturnTy

end BlockLang
