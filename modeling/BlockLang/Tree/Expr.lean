import BlockLang.Literal
import BlockLang.Symbol.Table

/-!
# Expressions

An expression is a tree whose nodes each carry a slot for a type. A new node has an empty slot;
typing fills it (`Typing/Infer.lean`), and a later visit may overwrite it. Nothing but `slot` and
`record` looks at slots.

Nodes that cannot be refused are made with their constructor and the slot `none`. Integers,
operators given by sign and calls are made by the functions below, which check.
-/

namespace BlockLang

/-- An expression; `slot` is the type recorded in the node. -/
inductive Expr where
  | const (slot : Option Ty) (value : Literal)
  | var (slot : Option Ty) (symbol : Symbol)
  | binary (slot : Option Ty) (op : BinaryOp) (left right : Expr)
  | not (slot : Option Ty) (operand : Expr)
  /-- One element of an array or a struct. -/
  | get (slot : Option Ty) (aggregate : Expr) (selector : Selector)
  /-- A copy of an array or a struct with one element replaced. -/
  | set (slot : Option Ty) (aggregate : Expr) (selector : Selector) (value : Expr)
  /-- The value that a pointer refers to. -/
  | deref (slot : Option Ty) (pointer : Expr)
  | call (slot : Option Ty) (name : String) (args : List Expr)

namespace Expr

instance : Inhabited Expr := ⟨const none (.bool false)⟩

/-! ## Slots -/

/-- The type recorded in a node. -/
def slot : Expr → Option Ty
  | const s _ => s
  | var s _ => s
  | binary s _ _ _ => s
  | not s _ => s
  | get s _ _ => s
  | set s _ _ _ => s
  | deref s _ => s
  | call s _ _ => s

/-- The node with another type recorded; its children stay as they are. -/
def record (t : Ty) : Expr → Expr
  | const _ c => const (some t) c
  | var _ x => var (some t) x
  | binary _ op l r => binary (some t) op l r
  | not _ e => not (some t) e
  | get _ a f => get (some t) a f
  | set _ a f v => set (some t) a f v
  | deref _ p => deref (some t) p
  | call _ n as => call (some t) n as

/-- What was recorded is in the slot. -/
@[simp] theorem slot_record (t : Ty) (e : Expr) : (e.record t).slot = some t := by
  cases e <;> rfl

/-- Only the last recording counts. -/
@[simp] theorem record_record (t u : Ty) (e : Expr) : (e.record u).record t = e.record t := by
  cases e <;> rfl

/-! ## Checked construction -/

/-- An integer literal, which has to be representable in its width. -/
def ofInt (width : IntWidth) (value : Int) : Except Defect Expr :=
  (Literal.ofInt width value).map (const none)

/-- Two operands joined by the operator with the given sign. -/
def ofSign (family : OpFamily) (sign : String) (left right : Expr) : Except Defect Expr :=
  (family.read sign).map fun op => binary none op left right

/-- A call of a function, whose name has to be of the form of a name. -/
def callTo (name : String) (args : List Expr) : Except Defect Expr :=
  (Ident.check .function name).map fun _ => call none name args

end Expr

end BlockLang
