import BlockLang.Tree.Expr

/-!
# Statements and blocks

A block is a list of statements. In a proper block nothing follows a return that stands directly in
it: what follows could never run. A return inside a branch or a loop does not count, as what follows
the branch may still run. `Block.ofStmts` is the constructor that refuses a block with statements
out of reach.
-/

namespace BlockLang

/-- A statement. -/
inductive Stmt where
  /-- Introduces a variable; without a value it holds nothing until it is assigned. -/
  | define (symbol : Symbol) (value : Option Expr)
  | assign (symbol : Symbol) (value : Expr)
  | ret (value : Option Expr)
  | branch (condition : Expr) (thenBlock elseBlock : List Stmt)
  | loop (condition : Expr) (body : List Stmt)
  | call (name : String) (args : List Expr)

/-- Statements in order. -/
abbrev Block := List Stmt

/-! ## Kinds -/

/-- The kind of a statement. -/
inductive StmtKind where
  | define
  | assign
  | ret
  | branch
  | loop
  | call
deriving DecidableEq

/-- The word for a kind. -/
def StmtKind.word : StmtKind → String
  | .define => "define"
  | .assign => "assign"
  | .ret => "return"
  | .branch => "if"
  | .loop => "while"
  | .call => "call"

namespace Stmt

/-- The kind of a statement. -/
def kind : Stmt → StmtKind
  | define _ _ => .define
  | assign _ _ => .assign
  | ret _ => .ret
  | branch _ _ _ => .branch
  | loop _ _ => .loop
  | call _ _ => .call

/-- Whether the statement itself is a return. -/
def isReturn : Stmt → Bool
  | ret _ => true
  | _ => false

/-- A call of a function, whose name has to be of the form of a name. -/
def callTo (name : String) (args : List Expr) : Except Defect Stmt :=
  (Ident.check .function name).map fun _ => call name args

end Stmt

/-! ## Reachability -/

namespace Block

/-- The position of the first statement that follows a direct return. -/
def unreachable? (block : Block) : Option Nat :=
  match block.findIdx? Stmt.isReturn with
  | some i => if i + 1 < block.length then some (i + 1) else none
  | none => none

/-- What is wrong with a block's own list of statements. -/
def reachDefect? (block : Block) : Option Defect := block.unreachable?.map Defect.unreachable

/-- Accepts a list of statements in which nothing follows a direct return. -/
def checkReachable (block : Block) : Except Defect Unit := Defect.verdict block.reachDefect?

/-- A block of the given statements, all of which have to be reachable. -/
def ofStmts (stmts : List Stmt) : Except Defect Block :=
  (checkReachable stmts).map fun _ => stmts

end Block

end BlockLang
