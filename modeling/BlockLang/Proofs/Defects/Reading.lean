import BlockLang.Proofs.Tree.Parts
import BlockLang.Tree.Defects

/-!
# Defects in reading order

A tree is read from the outside in and from left to right: a block before its statements, a
statement before its expressions and these before the blocks inside it, a node before the nodes
below it. `Part` is what is met on the way, and each part can have a defect of its own, which is
found without looking at the parts below (`Part.defect?`).

The first defect of a tree is the first one that a part has, when the parts are taken in this order
(`Expr.firstDefect_eq`, `Stmt.firstDefect_eq`, `Block.firstDefect_eq`). This holds of every tree,
however it was made.
-/

namespace BlockLang

/-! ## Parts and their own defects -/

/-- What is wrong with a node, the nodes below it apart: its literal or its name. -/
def Expr.ownDefect? : Expr → Option Defect
  | .const _ c => c.defect?
  | .var _ x => Ident.defect? .variable x.name
  | .call _ name _ => Ident.defect? .function name
  | _ => none

/-- What is wrong with a statement, its expressions and the blocks inside it apart: its name. -/
def Stmt.ownDefect? : Stmt → Option Defect
  | .define x _ => Ident.defect? .variable x.name
  | .assign x _ => Ident.defect? .variable x.name
  | .call name _ => Ident.defect? .function name
  | _ => none

/-- A part of a tree that is met when the tree is read. -/
inductive Part where
  | block (block : Block)
  | stmt (stmt : Stmt)
  | node (node : Expr)

/-- What is wrong with a part, the parts inside it apart. -/
def Part.defect? : Part → Option Defect
  | block b => b.reachDefect?
  | stmt s => s.ownDefect?
  | node e => e.ownDefect?

/-- The parts of an expression, which are its nodes, in reading order. -/
def Expr.parts (e : Expr) : List Part := e.nodes.map Part.node

/-- The parts of the expressions in a list, in reading order. -/
def Expr.partsIn (es : List Expr) : List Part := (Expr.nodesIn es).map Part.node

mutual

/-- The parts of a statement in reading order. -/
def Stmt.parts : Stmt → List Part
  | .define x value => .stmt (.define x value) :: Expr.partsIn value.toList
  | .assign x value => .stmt (.assign x value) :: Expr.partsIn [value]
  | .ret value => .stmt (.ret value) :: Expr.partsIn value.toList
  | .branch condition thenBlock elseBlock =>
    .stmt (.branch condition thenBlock elseBlock) :: (Expr.partsIn [condition] ++
      (.block thenBlock :: Stmt.partsIn thenBlock ++ .block elseBlock :: Stmt.partsIn elseBlock))
  | .loop condition body =>
    .stmt (.loop condition body) :: (Expr.partsIn [condition] ++
      .block body :: Stmt.partsIn body)
  | .call name args => .stmt (.call name args) :: Expr.partsIn args

/-- The parts of the statements in a list, in reading order. -/
def Stmt.partsIn : List Stmt → List Part
  | [] => []
  | s :: ss => s.parts ++ Stmt.partsIn ss

end

/-- The parts of a block in reading order. -/
def Block.parts (block : Block) : List Part := .block block :: Stmt.partsIn block

theorem Stmt.mem_partsIn {p : Part} {ss : List Stmt} :
    p ∈ Stmt.partsIn ss ↔ ∃ s ∈ ss, p ∈ s.parts := by
  induction ss with
  | nil => simp [partsIn]
  | cons s ss ih => simp [partsIn, ih]

/-! ## The first defect -/

/-- Of a list, the first element is asked before the others. -/
theorem findSome?_cons_eq_or {α β : Type} (f : α → Option β) (a : α) (l : List α) :
    (a :: l).findSome? f = (f a).or (l.findSome? f) := by
  rw [List.findSome?_cons]
  cases f a with
  | none => rfl
  | some b => rfl

/-- A node is examined before its children. -/
theorem Expr.firstDefect_eq_or (e : Expr) :
    e.firstDefect = e.ownDefect?.or (Expr.firstDefectIn e.children) := by
  cases e <;> simp [firstDefect, ownDefect?, children, firstDefectIn]

theorem Expr.firstDefectIn_eq_nodes {es : List Expr}
    (h : ∀ a ∈ es, a.firstDefect = a.nodes.findSome? Expr.ownDefect?) :
    Expr.firstDefectIn es = (Expr.nodesIn es).findSome? Expr.ownDefect? := by
  induction es with
  | nil => rfl
  | cons e es ih =>
    have he := h e List.mem_cons_self
    have hes := ih fun a ha => h a (List.mem_cons_of_mem e ha)
    rw [firstDefectIn, nodesIn, he, hes, List.findSome?_append]

theorem Expr.firstDefect_eq_nodes (e : Expr) :
    e.firstDefect = e.nodes.findSome? Expr.ownDefect? := by
  induction e using Expr.induction_children with
  | step e ih =>
    rw [Expr.firstDefect_eq_or, Expr.nodes_eq, findSome?_cons_eq_or, Expr.firstDefectIn_eq_nodes ih]

/-- **The first defect of an expression is the first one that a part of it has.** -/
theorem Expr.firstDefect_eq (e : Expr) : e.firstDefect = e.parts.findSome? Part.defect? := by
  rw [parts, List.findSome?_map, Expr.firstDefect_eq_nodes]
  rfl

theorem Expr.findSome?_partsIn (es : List Expr) :
    (Expr.partsIn es).findSome? Part.defect? = Expr.firstDefectIn es := by
  rw [partsIn, List.findSome?_map, Expr.firstDefectIn_eq_nodes fun a _ => a.firstDefect_eq_nodes]
  rfl

theorem Expr.firstDefectIn_singleton (e : Expr) : Expr.firstDefectIn [e] = e.firstDefect := by
  rw [firstDefectIn, firstDefectIn, Option.or_none]

theorem Expr.firstDefectIn_toList (value : Option Expr) :
    Expr.firstDefectIn value.toList = value.bind Expr.firstDefect := by
  cases value with
  | none => rfl
  | some e => exact Expr.firstDefectIn_singleton e

mutual

/-- **The first defect of a statement is the first one that a part of it has.** -/
theorem Stmt.firstDefect_eq : (s : Stmt) → s.firstDefect = s.parts.findSome? Part.defect?
  | .define x value => by
    rw [firstDefect, parts, findSome?_cons_eq_or, Expr.findSome?_partsIn, Expr.firstDefectIn_toList]
    rfl
  | .assign x value => by
    rw [firstDefect, parts, findSome?_cons_eq_or, Expr.findSome?_partsIn,
      Expr.firstDefectIn_singleton]
    rfl
  | .ret value => by
    rw [firstDefect, parts, findSome?_cons_eq_or, Expr.findSome?_partsIn, Expr.firstDefectIn_toList]
    rfl
  | .branch condition thenBlock elseBlock => by
    rw [firstDefect, parts, findSome?_cons_eq_or, List.findSome?_append, List.findSome?_append,
      findSome?_cons_eq_or, findSome?_cons_eq_or, Expr.findSome?_partsIn,
      Expr.firstDefectIn_singleton, Stmt.firstDefectIn_eq thenBlock,
      Stmt.firstDefectIn_eq elseBlock]
    rfl
  | .loop condition body => by
    rw [firstDefect, parts, findSome?_cons_eq_or, List.findSome?_append, findSome?_cons_eq_or,
      Expr.findSome?_partsIn, Expr.firstDefectIn_singleton, Stmt.firstDefectIn_eq body]
    rfl
  | .call name args => by
    rw [firstDefect, parts, findSome?_cons_eq_or, Expr.findSome?_partsIn]
    rfl

theorem Stmt.firstDefectIn_eq : (ss : List Stmt) →
    Stmt.firstDefectIn ss = (Stmt.partsIn ss).findSome? Part.defect?
  | [] => rfl
  | s :: ss => by
    rw [firstDefectIn, partsIn, Stmt.firstDefect_eq s, Stmt.firstDefectIn_eq ss,
      List.findSome?_append]

end

/-- **The first defect of a block is the first one that a part of it has.** -/
theorem Block.firstDefect_eq (block : Block) :
    block.firstDefect = block.parts.findSome? Part.defect? := by
  rw [firstDefect, parts, findSome?_cons_eq_or, Stmt.firstDefectIn_eq]
  rfl

end BlockLang
