import BlockLang.Tree.Stmt

/-!
# Outlines of trees

A tree as lines of text, each node before its children. The line of an expression ends with the type
recorded in the node, or `?` if there is none. Statements that hold blocks are closed by `end`.

`outline x rest` is the outline of `x` followed by `rest`, which keeps the work linear. A run of
equal lines can be folded into one line with a count.
-/

namespace BlockLang

namespace Outline

/-- The line of an expression: its label and the recorded type. -/
def entry (slot : Option Ty) (label : String) : String :=
  match slot with
  | some t => label ++ " : " ++ t.text
  | none => label ++ " : ?"

/-- The label of an operator: its family and its sign. -/
def opLabel (op : BinaryOp) : String :=
  let family := match op.family with
    | .arithmetic => "arith"
    | .comparison => "compare"
    | .equality => "equality"
    | .logical => "logical"
  family ++ " " ++ op.text

/-- The label of a call: the function and the number of arguments. -/
def callLabel (name : String) (count : Nat) : String :=
  "call " ++ name ++ "/" ++ count.repr

/-- A run of equal lines as one line, with its length if that is more than one. -/
def foldRun : List String → String
  | [] => ""
  | [line] => line
  | line :: rest => line ++ " *" ++ (rest.length + 1).repr

/-- Folds each run of equal lines into one. -/
def fold (lines : List String) : List String :=
  (lines.splitBy (· == ·)).map foldRun

end Outline

open Outline

mutual

/-- The outline of an expression, followed by `rest`. -/
def Expr.outline : Expr → List String → List String
  | .const s c, rest => entry s c.label :: rest
  | .var s x, rest => entry s ("var " ++ x.name) :: rest
  | .binary s op l r, rest => entry s (opLabel op) :: l.outline (r.outline rest)
  | .not s e, rest => entry s "not" :: e.outline rest
  | .get s a f, rest => entry s ("get " ++ f.text) :: a.outline rest
  | .set s a f v, rest => entry s ("set " ++ f.text) :: a.outline (v.outline rest)
  | .deref s p, rest => entry s "deref" :: p.outline rest
  | .call s name args, rest => entry s (callLabel name args.length) :: Expr.outlineIn args rest

/-- The outlines of the expressions in a list, followed by `rest`. -/
def Expr.outlineIn : List Expr → List String → List String
  | [], rest => rest
  | e :: es, rest => e.outline (Expr.outlineIn es rest)

end

/-- The outline of a value that may be absent, followed by `rest`. -/
def Expr.outlineOption : Option Expr → List String → List String
  | none, rest => rest
  | some e, rest => e.outline rest

mutual

/-- The outline of a statement, followed by `rest`. -/
def Stmt.outline : Stmt → List String → List String
  | .define x value, rest => ("define " ++ x.name) :: Expr.outlineOption value rest
  | .assign x value, rest => ("assign " ++ x.name) :: value.outline rest
  | .ret value, rest => "return" :: Expr.outlineOption value rest
  | .branch condition thenBlock elseBlock, rest =>
    let tail := if elseBlock.isEmpty then "end" :: rest
      else "else" :: Stmt.outlineIn elseBlock ("end" :: rest)
    "if" :: condition.outline ("then" :: Stmt.outlineIn thenBlock tail)
  | .loop condition body, rest =>
    "while" :: condition.outline ("do" :: Stmt.outlineIn body ("end" :: rest))
  | .call name args, rest => callLabel name args.length :: Expr.outlineIn args rest

/-- The outlines of the statements in a list, followed by `rest`. -/
def Stmt.outlineIn : List Stmt → List String → List String
  | [], rest => rest
  | s :: ss, rest => s.outline (Stmt.outlineIn ss rest)

end

/-- The lines of an expression. -/
def Expr.lines (e : Expr) : List String := fold (e.outline [])

/-- The lines of a statement. -/
def Stmt.lines (s : Stmt) : List String := fold (s.outline [])

/-- The lines of a block. -/
def Block.lines (block : Block) : List String := fold (Stmt.outlineIn block [])

end BlockLang
