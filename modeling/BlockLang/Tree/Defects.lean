import BlockLang.Tree.Stmt

/-!
# The first defect of a tree

Trees are checked while they are built, so a tree made by the checking constructors has no defect
other than an integer literal out of range. A tree that came in another way can be examined as a
whole here.

## Order

Of several defects the first in reading order is reported. A block's own reachability comes before
anything inside the block, then its statements in order; the name of a variable or function comes
before the values that belong to it; a condition comes before the blocks that it guards; operands
and arguments go from left to right.
-/

namespace BlockLang

mutual

/-- The first defect of an expression. -/
def Expr.firstDefect : Expr → Option Defect
  | .const _ c => c.defect?
  | .var _ x => Ident.defect? .variable x.name
  | .binary _ _ l r => l.firstDefect.or r.firstDefect
  | .not _ e => e.firstDefect
  | .get _ a _ => a.firstDefect
  | .set _ a _ v => a.firstDefect.or v.firstDefect
  | .deref _ p => p.firstDefect
  | .call _ name args => (Ident.defect? .function name).or (Expr.firstDefectIn args)

/-- The first defect of the expressions in a list. -/
def Expr.firstDefectIn : List Expr → Option Defect
  | [] => none
  | e :: es => e.firstDefect.or (Expr.firstDefectIn es)

end

mutual

/-- The first defect of a statement. -/
def Stmt.firstDefect : Stmt → Option Defect
  | .define x value => (Ident.defect? .variable x.name).or (value.bind Expr.firstDefect)
  | .assign x value => (Ident.defect? .variable x.name).or value.firstDefect
  | .ret value => value.bind Expr.firstDefect
  | .branch condition thenBlock elseBlock =>
    condition.firstDefect.or
      (((Block.reachDefect? thenBlock).or (Stmt.firstDefectIn thenBlock)).or
        ((Block.reachDefect? elseBlock).or (Stmt.firstDefectIn elseBlock)))
  | .loop condition body =>
    condition.firstDefect.or ((Block.reachDefect? body).or (Stmt.firstDefectIn body))
  | .call name args => (Ident.defect? .function name).or (Expr.firstDefectIn args)

/-- The first defect of the statements in a list. -/
def Stmt.firstDefectIn : List Stmt → Option Defect
  | [] => none
  | s :: ss => s.firstDefect.or (Stmt.firstDefectIn ss)

end

/-- The first defect of a block. -/
def Block.firstDefect (block : Block) : Option Defect :=
  block.reachDefect?.or (Stmt.firstDefectIn block)

end BlockLang
