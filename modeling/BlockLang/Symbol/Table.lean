import BlockLang.Defect

/-!
# Symbols

A symbol is a variable: an identity, a name and a type. Identity is the number alone. Two symbols
with the same name and type are different variables when their numbers differ, and the name plays no
part in scoping.

## Issuing

Symbol tables issue symbols, each table for one program. All tables draw their numbers from one
supply, which counts upwards in 32 bits and starts again at zero when the words are used up. A
refused name takes no number and leaves its table as it was.
-/

namespace BlockLang

/-! ## Identity and name -/

/-- The number that identifies a variable, a word of 32 bits. -/
structure SymbolId where
  number : UInt32
deriving DecidableEq

/-- Identities are ordered as they were given out, as long as the words last. -/
instance : Ord SymbolId := ⟨fun a b => compareOfLessAndEq a.number.toNat b.number.toNat⟩

/-- A variable. -/
structure Symbol where
  id : SymbolId
  name : String
  ty : Ty

namespace Symbol

/-- Whether two symbols are one variable. -/
def same (x y : Symbol) : Bool := x.id == y.id

/-- The name made distinct from other symbols of that name, as in `x.3`. -/
def uniqueName (x : Symbol) : String :=
  x.name ++ "." ++ x.id.number.toNat.repr

/-- Name, number and type, as in `x#3: Int32`. -/
def description (x : Symbol) : String :=
  x.name ++ "#" ++ x.id.number.toNat.repr ++ ": " ++ x.ty.text

end Symbol

/-! ## The supply of numbers -/

/-- The next number to be given out. -/
structure IdSupply where
  next : UInt32 := 0

/-- Gives out one number. -/
def IdSupply.take (supply : IdSupply) : SymbolId × IdSupply :=
  (⟨supply.next⟩, ⟨supply.next + 1⟩)

/-! ## Tables -/

/-- How many symbols a table has issued. -/
structure SymbolTable where
  issued : Nat := 0

namespace SymbolTable

/-- Whether a table has issued no symbol yet. -/
def isEmpty (table : SymbolTable) : Bool := table.issued == 0

/-- Issues a new symbol, unless its name is not of the form of a name. -/
def declare (table : SymbolTable) (supply : IdSupply) (name : String) (ty : Ty) :
    Except Defect (Symbol × SymbolTable × IdSupply) := do
  Ident.check .variable name
  let (id, rest) := supply.take
  return (⟨id, name, ty⟩, ⟨table.issued + 1⟩, rest)

end SymbolTable

/-! ## Tables over one supply -/

/-- All tables, in the order in which they were opened, and the supply that they share. -/
structure Registry where
  supply : IdSupply := {}
  tables : List SymbolTable := []

namespace Registry

/-- Opens an empty table behind the others. -/
def openTable (registry : Registry) : Registry :=
  { registry with tables := registry.tables ++ [{}] }

/-- A registry with a single table. -/
def single : Registry := openTable {}

/-- Issues a symbol from the table at a position; `none` if there is no such table. -/
def declare? (registry : Registry) (position : Nat) (name : String) (ty : Ty) :
    Option (Except Defect (Symbol × Registry)) :=
  registry.tables[position]?.map fun table => do
    let (symbol, issued, rest) ← table.declare registry.supply name ty
    return (symbol, ⟨rest, registry.tables.set position issued⟩)

end Registry

end BlockLang
