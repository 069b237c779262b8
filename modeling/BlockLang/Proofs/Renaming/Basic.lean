import BlockLang.Proofs.Context
import BlockLang.Proofs.Tree.Parts

/-!
# Renaming variables

A renaming gives every variable another identity and another name and leaves its type alone. It is
one-to-one on identities, so different variables stay different. Names are free: different variables
may receive one name, and variables of one name may receive different ones.

A renaming is applied to all occurrences of a variable at once: in a tree, in a list of parameters
and in a context. What is recorded in the nodes of a tree stays (`Block.slots_rename`).
-/

namespace BlockLang

/-- Other identities and names for variables. -/
structure Renaming where
  id : SymbolId → SymbolId
  name : Symbol → String
  injective : Function.Injective id

/-- The renamed variable. -/
def Renaming.symbol (ρ : Renaming) (x : Symbol) : Symbol := ⟨ρ.id x.id, ρ.name x, x.ty⟩

/-! ## Trees -/

mutual

/-- The expression with its variables renamed. -/
def Expr.rename (ρ : Renaming) : Expr → Expr
  | .const s c => .const s c
  | .var s x => .var s (ρ.symbol x)
  | .binary s op l r => .binary s op (l.rename ρ) (r.rename ρ)
  | .not s e => .not s (e.rename ρ)
  | .get s a f => .get s (a.rename ρ) f
  | .set s a f v => .set s (a.rename ρ) f (v.rename ρ)
  | .deref s p => .deref s (p.rename ρ)
  | .call s name args => .call s name (Expr.renameAll ρ args)

/-- The expressions of a list with their variables renamed. -/
def Expr.renameAll (ρ : Renaming) : List Expr → List Expr
  | [] => []
  | e :: es => e.rename ρ :: Expr.renameAll ρ es

end

mutual

/-- The statement with its variables renamed. -/
def Stmt.rename (ρ : Renaming) : Stmt → Stmt
  | .define x value => .define (ρ.symbol x) (value.map (Expr.rename ρ))
  | .assign x value => .assign (ρ.symbol x) (value.rename ρ)
  | .ret value => .ret (value.map (Expr.rename ρ))
  | .branch condition thenBlock elseBlock =>
    .branch (condition.rename ρ) (Block.rename ρ thenBlock) (Block.rename ρ elseBlock)
  | .loop condition body => .loop (condition.rename ρ) (Block.rename ρ body)
  | .call name args => .call name (Expr.renameAll ρ args)

/-- The block with its variables renamed. -/
def Block.rename (ρ : Renaming) : List Stmt → List Stmt
  | [] => []
  | s :: ss => s.rename ρ :: Block.rename ρ ss

end

variable {ρ : Renaming}

theorem Expr.renameAll_eq_map (es : List Expr) : Expr.renameAll ρ es = es.map (Expr.rename ρ) := by
  induction es with
  | nil => rfl
  | cons e es ih => rw [renameAll, List.map_cons, ih]

@[simp] theorem Expr.length_renameAll (es : List Expr) :
    (Expr.renameAll ρ es).length = es.length := by
  rw [renameAll_eq_map, List.length_map]

@[simp] theorem Expr.rename_record (t : Ty) (e : Expr) :
    (e.record t).rename ρ = (e.rename ρ).record t := by
  cases e <;> rfl

@[simp] theorem Expr.slot_rename (e : Expr) : (e.rename ρ).slot = e.slot := by
  cases e <;> rfl

theorem Expr.children_rename (e : Expr) :
    (e.rename ρ).children = e.children.map (Expr.rename ρ) := by
  cases e with
  | call s name args => exact renameAll_eq_map args
  | _ => rfl

theorem Stmt.exprs_rename (s : Stmt) : (s.rename ρ).exprs = s.exprs.map (Expr.rename ρ) := by
  cases s with
  | define x value => cases value <;> rfl
  | ret value => cases value <;> rfl
  | call name args => exact Expr.renameAll_eq_map args
  | _ => rfl

theorem Stmt.defines?_rename (s : Stmt) : (s.rename ρ).defines? = s.defines?.map ρ.symbol := by
  cases s <;> rfl

/-! ## What the nodes hold -/

/-- The types recorded in the expression nodes of a block, at any depth and in order. -/
def Block.slots (block : Block) : List (Option Ty) := (Block.nodes block).map Expr.slot

theorem Expr.nodesIn_rename {es : List Expr}
    (h : ∀ a ∈ es, (a.rename ρ).nodes = a.nodes.map (Expr.rename ρ)) :
    Expr.nodesIn (es.map (Expr.rename ρ)) = (Expr.nodesIn es).map (Expr.rename ρ) := by
  induction es with
  | nil => rfl
  | cons e es ih =>
    have he := h e List.mem_cons_self
    have hes := ih fun a ha => h a (List.mem_cons_of_mem e ha)
    rw [List.map_cons, nodesIn, nodesIn, List.map_append, he, hes]

theorem Expr.nodes_rename (e : Expr) : (e.rename ρ).nodes = e.nodes.map (Expr.rename ρ) := by
  induction e using Expr.induction_children with
  | step e ih =>
    rw [Expr.nodes_eq, Expr.nodes_eq, List.map_cons, children_rename, nodesIn_rename ih]

mutual

theorem Stmt.stmts_rename : (s : Stmt) → (s.rename ρ).stmts = s.stmts.map (Stmt.rename ρ)
  | .define _ _ => rfl
  | .assign _ _ => rfl
  | .ret _ => rfl
  | .branch condition thenBlock elseBlock => by
    rw [Stmt.rename, Stmt.stmts, Stmt.stmts, Block.stmts_rename thenBlock,
      Block.stmts_rename elseBlock, List.map_cons, List.map_append, Stmt.rename]
  | .loop condition body => by
    rw [Stmt.rename, Stmt.stmts, Stmt.stmts, Block.stmts_rename body, List.map_cons, Stmt.rename]
  | .call _ _ => rfl

theorem Block.stmts_rename : (ss : List Stmt) →
    Block.stmts (Block.rename ρ ss) = (Block.stmts ss).map (Stmt.rename ρ)
  | [] => rfl
  | s :: ss => by
    rw [Block.rename, Block.stmts, Block.stmts, Stmt.stmts_rename s, Block.stmts_rename ss,
      List.map_append]

end

/-- **Renaming changes nothing about the recorded types.** -/
theorem Block.slots_rename (block : Block) :
    Block.slots (Block.rename ρ block) = Block.slots block := by
  have hnodes : ∀ s : Stmt, (Expr.nodesIn (s.rename ρ).exprs).map Expr.slot =
      (Expr.nodesIn s.exprs).map Expr.slot := by
    intro s
    rw [Stmt.exprs_rename, Expr.nodesIn_rename fun a _ => Expr.nodes_rename a, List.map_map]
    exact List.map_congr_left fun a _ => Expr.slot_rename a
  rw [slots, slots, nodes, nodes, stmts_rename, List.map_flatMap, List.map_flatMap,
    List.flatMap_map]
  simp only [hnodes]

/-! ## Contexts -/

/-- Scopes are equal when they hold the same identities in the same order. -/
theorem Scope.eq_of_ids {a b : Scope} (h : a.ids = b.ids) : a = b := by
  cases a
  cases b
  cases h
  rfl

/-- The scope with its variables renamed. -/
def Scope.rename (ρ : Renaming) (scope : Scope) : Scope where
  ids := scope.ids.map ρ.id
  nodup := List.Pairwise.map ρ.id (fun _ _ hne he => hne (ρ.injective he)) scope.nodup

theorem Scope.ids_rename {scope : Scope} : (scope.rename ρ).ids = scope.ids.map ρ.id := rfl

namespace Context

variable {Γ : Context} {x : Symbol}

/-- The context with its variables renamed. -/
def rename (ρ : Renaming) (Γ : Context) : Context := { Γ with scope := Γ.scope.rename ρ }

@[simp] theorem signatures_rename : (Γ.rename ρ).signatures = Γ.signatures := rfl

@[simp] theorem returns_rename : (Γ.rename ρ).returns = Γ.returns := rfl

/-- **A renamed variable is declared in the renamed context exactly when the variable was.** This is
where a renaming has to be one-to-one. -/
theorem declares_rename : (Γ.rename ρ).Declares (ρ.symbol x) ↔ Γ.Declares x := by
  constructor
  · intro h
    obtain ⟨i, hi, he⟩ := List.mem_map.mp h
    have hix : i = x.id := ρ.injective he
    rw [Declares, ← hix]
    exact hi
  · intro h
    exact List.mem_map_of_mem h

/-- A variable is added to a renamed context under its new identity. -/
theorem add_rename : (Γ.rename ρ).add (ρ.symbol x) = (Γ.add x).rename ρ := by
  have hscope : (Γ.scope.rename ρ).add (ρ.symbol x) = (Γ.scope.add x).rename ρ := by
    by_cases hx : Γ.Declares x
    · have hx' : (ρ.symbol x).id ∈ (Γ.scope.rename ρ).ids := declares_rename.mpr hx
      rw [Scope.add, Scope.insert?_eq_none hx', Scope.add, Scope.insert?_eq_none hx]
      rfl
    · have hx' : (ρ.symbol x).id ∉ (Γ.scope.rename ρ).ids := fun hc => hx (declares_rename.mp hc)
      apply Scope.eq_of_ids
      rw [Scope.ids_rename, Scope.ids_insert? (Scope.insert?_eq_add hx'),
        Scope.ids_insert? (Scope.insert?_eq_add hx), List.map_cons]
      rfl
  rw [add, rename, hscope]
  rfl

theorem addAll_rename {xs : List Symbol} :
    (Γ.rename ρ).addAll (xs.map ρ.symbol) = (Γ.addAll xs).rename ρ := by
  induction xs generalizing Γ with
  | nil => rfl
  | cons x xs ih => rw [List.map_cons, addAll_cons, addAll_cons, add_rename, ih]

end Context

end BlockLang
