import BlockLang.Tree.Stmt

/-!
# Parts of trees

What a tree is made of, apart from what typing does with it: the nodes of an expression, the
expressions and the blocks that stand in a statement, the variable that a statement introduces, and
the tree that is left when all slots are emptied (`bare`). Two trees differ in their slots only
exactly when they are equal once bare.
-/

namespace BlockLang

/-! ## Nodes of expressions -/

mutual

/-- The nodes of an expression, each before the nodes below it. -/
def Expr.nodes : Expr → List Expr
  | .const s c => [.const s c]
  | .var s x => [.var s x]
  | .binary s op l r => .binary s op l r :: (l.nodes ++ r.nodes)
  | .not s e => .not s e :: e.nodes
  | .get s a f => .get s a f :: a.nodes
  | .set s a f v => .set s a f v :: (a.nodes ++ v.nodes)
  | .deref s p => .deref s p :: p.nodes
  | .call s name args => .call s name args :: Expr.nodesIn args

/-- The nodes of the expressions in a list. -/
def Expr.nodesIn : List Expr → List Expr
  | [] => []
  | e :: es => e.nodes ++ Expr.nodesIn es

end

namespace Expr

/-- The expressions directly below a node, in order. -/
def children : Expr → List Expr
  | const _ _ => []
  | var _ _ => []
  | binary _ _ l r => [l, r]
  | not _ e => [e]
  | get _ a _ => [a]
  | set _ a _ v => [a, v]
  | deref _ p => [p]
  | call _ _ args => args

/-- The node with other expressions directly below it. -/
def mapChildren (f : Expr → Expr) : Expr → Expr
  | const s c => const s c
  | var s x => var s x
  | binary s op l r => binary s op (f l) (f r)
  | not s e => not s (f e)
  | get s a sel => get s (f a) sel
  | set s a sel v => set s (f a) sel (f v)
  | deref s p => deref s (f p)
  | call s name args => call s name (args.map f)

/-- The variable that a node reads. -/
def reads? : Expr → Option Symbol
  | var _ x => some x
  | _ => none

/-- The function that a node calls. -/
def calls? : Expr → Option String
  | call _ name _ => some name
  | _ => none

@[simp] theorem children_mapChildren (f : Expr → Expr) (e : Expr) :
    (e.mapChildren f).children = e.children.map f := by
  cases e <;> rfl

@[simp] theorem children_record (t : Ty) (e : Expr) : (e.record t).children = e.children := by
  cases e <;> rfl

theorem mem_nodesIn {n : Expr} {es : List Expr} : n ∈ nodesIn es ↔ ∃ e ∈ es, n ∈ e.nodes := by
  induction es with
  | nil => simp [nodesIn]
  | cons e es ih => simp [nodesIn, ih]

/-- The nodes of an expression are its root and the nodes of its children. -/
theorem nodes_eq (e : Expr) : e.nodes = e :: nodesIn e.children := by
  cases e <;> simp [nodes, nodesIn, children]

theorem mem_nodes_self (e : Expr) : e ∈ e.nodes := by
  rw [nodes_eq]
  exact List.mem_cons_self

theorem mem_nodes_of_child {n a e : Expr} (ha : a ∈ e.children) (hn : n ∈ a.nodes) :
    n ∈ e.nodes := by
  rw [nodes_eq]
  exact List.mem_cons_of_mem e (mem_nodesIn.mpr ⟨a, ha, hn⟩)

mutual

/-- What passes from the children of a node to the node holds of every expression. -/
theorem induction_children {P : Expr → Prop} (step : ∀ e, (∀ a ∈ e.children, P a) → P e) :
    (e : Expr) → P e
  | .const s c => step _ (by simp [children])
  | .var s x => step _ (by simp [children])
  | .binary s op l r =>
    step _ (by simpa [children] using ⟨induction_children step l, induction_children step r⟩)
  | .not s a => step _ (by simpa [children] using induction_children step a)
  | .get s a f => step _ (by simpa [children] using induction_children step a)
  | .set s a f v =>
    step _ (by simpa [children] using ⟨induction_children step a, induction_children step v⟩)
  | .deref s p => step _ (by simpa [children] using induction_children step p)
  | .call s name args => step _ (induction_children_list step args)

theorem induction_children_list {P : Expr → Prop} (step : ∀ e, (∀ a ∈ e.children, P a) → P e) :
    (es : List Expr) → ∀ a ∈ es, P a
  | [], a, h => absurd h List.not_mem_nil
  | e :: es, a, h => by
    rcases List.mem_cons.mp h with h | h
    · rw [h]
      exact induction_children step e
    · exact induction_children_list step es a h

end

/-- The nodes of a node of an expression are nodes of the expression. -/
theorem mem_nodes_trans {n m e : Expr} (hn : n ∈ m.nodes) (hm : m ∈ e.nodes) : n ∈ e.nodes := by
  induction e using induction_children with
  | step e ih =>
    rw [nodes_eq] at hm
    rcases List.mem_cons.mp hm with rfl | hm
    · exact hn
    · obtain ⟨a, ha, hm⟩ := mem_nodesIn.mp hm
      exact mem_nodes_of_child ha (ih a ha hm)

end Expr

/-! ## Parts of statements -/

namespace Stmt

/-- The variable that a statement introduces. -/
def defines? : Stmt → Option Symbol
  | define x _ => some x
  | _ => none

/-- The variable that a statement assigns. -/
def assigns? : Stmt → Option Symbol
  | assign x _ => some x
  | _ => none

/-- The function that a statement calls, its expressions apart. -/
def calls? : Stmt → Option String
  | call name _ => some name
  | _ => none

/-- The expressions of a statement itself, in order. -/
def exprs : Stmt → List Expr
  | define _ value => value.toList
  | assign _ value => [value]
  | ret value => value.toList
  | branch condition _ _ => [condition]
  | loop condition _ => [condition]
  | call _ args => args

/-- The blocks inside a statement: both arms of a branch, or the body of a loop. -/
def blocks : Stmt → List Block
  | branch _ thenBlock elseBlock => [thenBlock, elseBlock]
  | loop _ body => [body]
  | _ => []

/-- The statement with other expressions and blocks in it. -/
def mapParts (f : Expr → Expr) (g : Block → Block) : Stmt → Stmt
  | define x value => define x (value.map f)
  | assign x value => assign x (f value)
  | ret value => ret (value.map f)
  | branch condition thenBlock elseBlock => branch (f condition) (g thenBlock) (g elseBlock)
  | loop condition body => loop (f condition) (g body)
  | call name args => call name (args.map f)

theorem exprs_mapParts (f : Expr → Expr) (g : Block → Block) (s : Stmt) :
    (s.mapParts f g).exprs = s.exprs.map f := by
  cases s with
  | define x value => cases value <;> rfl
  | ret value => cases value <;> rfl
  | _ => rfl

theorem blocks_mapParts (f : Expr → Expr) (g : Block → Block) (s : Stmt) :
    (s.mapParts f g).blocks = s.blocks.map g := by
  cases s <;> rfl

end Stmt

mutual

theorem Stmt.induction_blocks {P : Block → Prop}
    (step : ∀ ss : Block, (∀ s ∈ ss, ∀ b ∈ s.blocks, P b) → P ss) :
    (s : Stmt) → ∀ b ∈ s.blocks, P b
  | .define _ _, _, h => by cases h
  | .assign _ _, _, h => by cases h
  | .ret _, _, h => by cases h
  | .branch _ thenBlock elseBlock, b, h => by
    rcases List.mem_cons.mp h with h | h
    · rw [h]
      exact step thenBlock (Block.induction_blocks_mem step thenBlock)
    · rw [List.mem_singleton.mp h]
      exact step elseBlock (Block.induction_blocks_mem step elseBlock)
  | .loop _ body, b, h => by
    rw [List.mem_singleton.mp h]
    exact step body (Block.induction_blocks_mem step body)
  | .call _ _, _, h => by cases h

theorem Block.induction_blocks_mem {P : Block → Prop}
    (step : ∀ ss : Block, (∀ s ∈ ss, ∀ b ∈ s.blocks, P b) → P ss) :
    (ss : List Stmt) → ∀ s ∈ ss, ∀ b ∈ s.blocks, P b
  | [], s, h => absurd h List.not_mem_nil
  | r :: rs, s, h => by
    rcases List.mem_cons.mp h with h | h
    · rw [h]
      exact Stmt.induction_blocks step r
    · exact Block.induction_blocks_mem step rs s h

end

/-- What passes from the blocks inside the statements of a block to the block holds of every
block. -/
theorem Block.induction_blocks {P : Block → Prop}
    (step : ∀ ss : Block, (∀ s ∈ ss, ∀ b ∈ s.blocks, P b) → P ss) (block : Block) : P block :=
  step block (induction_blocks_mem step block)

/-- The variables that the statements of a block introduce directly, in order. -/
def Block.defined (block : Block) : List Symbol := block.filterMap Stmt.defines?

@[simp] theorem Block.defined_nil : Block.defined [] = [] := rfl

theorem Block.defined_cons (s : Stmt) (ss : List Stmt) :
    Block.defined (s :: ss) = s.defines?.toList ++ Block.defined ss := by
  rw [defined, List.filterMap_cons]
  cases s.defines? with
  | none => rfl
  | some x => rfl

mutual

/-- The statement and the statements in the blocks inside it, each before those inside. -/
def Stmt.stmts : Stmt → List Stmt
  | .define x value => [.define x value]
  | .assign x value => [.assign x value]
  | .ret value => [.ret value]
  | .branch condition thenBlock elseBlock =>
    .branch condition thenBlock elseBlock :: (Block.stmts thenBlock ++ Block.stmts elseBlock)
  | .loop condition body => .loop condition body :: Block.stmts body
  | .call name args => [.call name args]

/-- The statements of a block, at any depth. -/
def Block.stmts : List Stmt → List Stmt
  | [] => []
  | s :: ss => s.stmts ++ Block.stmts ss

end

/-- The expression nodes of a block, at any depth. -/
def Block.nodes (block : Block) : List Expr :=
  (Block.stmts block).flatMap fun s => Expr.nodesIn s.exprs

theorem Block.mem_nodes {n : Expr} {block : Block} :
    n ∈ Block.nodes block ↔ ∃ s ∈ Block.stmts block, ∃ e ∈ s.exprs, n ∈ e.nodes := by
  rw [nodes, List.mem_flatMap]
  exact exists_congr fun s => and_congr_right fun _ => Expr.mem_nodesIn

/-- The statements of a statement are itself and those of the blocks inside it. -/
theorem Stmt.mem_stmts {s n : Stmt} :
    n ∈ s.stmts ↔ n = s ∨ ∃ b ∈ s.blocks, n ∈ Block.stmts b := by
  cases s <;> simp [stmts, blocks]

/-! ## Trees without recorded types -/

mutual

/-- The expression with all slots empty. -/
def Expr.bare : Expr → Expr
  | .const _ c => .const none c
  | .var _ x => .var none x
  | .binary _ op l r => .binary none op l.bare r.bare
  | .not _ e => .not none e.bare
  | .get _ a f => .get none a.bare f
  | .set _ a f v => .set none a.bare f v.bare
  | .deref _ p => .deref none p.bare
  | .call _ name args => .call none name (Expr.bareAll args)

/-- The expressions of a list with all slots empty. -/
def Expr.bareAll : List Expr → List Expr
  | [] => []
  | e :: es => e.bare :: Expr.bareAll es

end

mutual

/-- The statement with all slots empty. -/
def Stmt.bare : Stmt → Stmt
  | .define x value => .define x (value.map Expr.bare)
  | .assign x value => .assign x value.bare
  | .ret value => .ret (value.map Expr.bare)
  | .branch condition thenBlock elseBlock =>
    .branch condition.bare (Block.bare thenBlock) (Block.bare elseBlock)
  | .loop condition body => .loop condition.bare (Block.bare body)
  | .call name args => .call name (Expr.bareAll args)

/-- The block with all slots empty. -/
def Block.bare : List Stmt → List Stmt
  | [] => []
  | s :: ss => s.bare :: Block.bare ss

end

namespace Expr

@[simp] theorem bare_record (t : Ty) (e : Expr) : (e.record t).bare = e.bare := by
  cases e <;> rfl

@[simp] theorem length_bareAll (es : List Expr) : (bareAll es).length = es.length := by
  induction es with
  | nil => rfl
  | cons e es ih => rw [bareAll, List.length_cons, List.length_cons, ih]

end Expr

theorem Expr.bareAll_eq_map (es : List Expr) : Expr.bareAll es = es.map Expr.bare := by
  induction es with
  | nil => rfl
  | cons e es ih => rw [bareAll, List.map_cons, ih]

theorem Block.bare_eq_map (ss : List Stmt) : Block.bare ss = ss.map Stmt.bare := by
  induction ss with
  | nil => rfl
  | cons s ss ih => rw [bare, List.map_cons, ih]

theorem Stmt.defines?_bare (s : Stmt) : s.bare.defines? = s.defines? := by
  cases s <;> rfl

theorem Block.defined_bare (ss : List Stmt) : Block.defined (Block.bare ss) = Block.defined ss := by
  induction ss with
  | nil => rfl
  | cons s ss ih => rw [bare, defined_cons, defined_cons, Stmt.defines?_bare, ih]

end BlockLang
