import BlockLang.Proofs.Context
import BlockLang.Proofs.Defects.Address

/-!
# The walk through a tree

Typing goes through a tree once. It stops at a statement when it enters it, before anything inside
it, and at a node when it has been at all nodes below it. What stands side by side is taken from
left to right. A block is no stop: it has nothing to report but its statements.

`Part.walk` lists the stops of a tree, each with its address and with the context in force there.
The list is pinned down by statements that do not mention how it is made:

* `Part.exists_mem_walk_iff` — the addresses on it are those of the statements and the nodes;
* `Part.context_of_mem_walk` — the context is the first one with the definitions that reach the
  address;
* `Part.pairwise_walk` — they stand in the order `Part.Before`, which says what was said above.

No address is before itself, so each stands on the list once (`Part.nodup_walk`). The statements on
it are those of the block from the outside in (`Block.stmts_walkFrom`).
-/

namespace BlockLang

/-! ## Stops -/

/-- A statement or a node on the walk. -/
structure Stop where
  /-- The way to it from the root of the tree. -/
  address : List Nat
  /-- What is known there. -/
  context : Context
  part : Part

/-- The stop in a tree, as one in the tree around it, where the former is the `i`-th part. -/
def Stop.below (i : Nat) (stop : Stop) : Stop := { stop with address := i :: stop.address }

@[simp] theorem Stop.address_below (i : Nat) (stop : Stop) :
    (stop.below i).address = i :: stop.address := rfl

@[simp] theorem Stop.context_below (i : Nat) (stop : Stop) :
    (stop.below i).context = stop.context := rfl

@[simp] theorem Stop.part_below (i : Nat) (stop : Stop) : (stop.below i).part = stop.part := rfl

/-! ## The walk -/

mutual

/-- The stops in an expression: a node comes behind the nodes below it. -/
def Expr.walk (Γ : Context) : Expr → List Stop
  | .const s c => [⟨[], Γ, .node (.const s c)⟩]
  | .var s x => [⟨[], Γ, .node (.var s x)⟩]
  | .binary s op l r =>
    (l.walk Γ).map (.below 0) ++ ((r.walk Γ).map (.below 1) ++ [⟨[], Γ, .node (.binary s op l r)⟩])
  | .not s a => (a.walk Γ).map (.below 0) ++ [⟨[], Γ, .node (.not s a)⟩]
  | .get s a f => (a.walk Γ).map (.below 0) ++ [⟨[], Γ, .node (.get s a f)⟩]
  | .set s a f v =>
    (a.walk Γ).map (.below 0) ++ ((v.walk Γ).map (.below 1) ++ [⟨[], Γ, .node (.set s a f v)⟩])
  | .deref s p => (p.walk Γ).map (.below 0) ++ [⟨[], Γ, .node (.deref s p)⟩]
  | .call s name args => Expr.walkFrom Γ 0 args ++ [⟨[], Γ, .node (.call s name args)⟩]

/-- The stops in expressions, the first of which is the `k`-th part of the tree around. -/
def Expr.walkFrom (Γ : Context) (k : Nat) : List Expr → List Stop
  | [] => []
  | e :: es => (e.walk Γ).map (.below k) ++ Expr.walkFrom Γ (k + 1) es

end

mutual

/-- The stops in a statement, which comes before its expressions and these before the blocks in it.
The context is the same in all of them. -/
def Stmt.walk (Γ : Context) : Stmt → List Stop
  | .define x value => ⟨[], Γ, .stmt (.define x value)⟩ :: Expr.walkFrom Γ 0 value.toList
  | .assign x value => ⟨[], Γ, .stmt (.assign x value)⟩ :: Expr.walkFrom Γ 0 [value]
  | .ret value => ⟨[], Γ, .stmt (.ret value)⟩ :: Expr.walkFrom Γ 0 value.toList
  | .branch c thenBlock elseBlock =>
    ⟨[], Γ, .stmt (.branch c thenBlock elseBlock)⟩ :: (Expr.walkFrom Γ 0 [c] ++
      ((Block.walkFrom Γ 0 thenBlock).map (.below 1) ++
        (Block.walkFrom Γ 0 elseBlock).map (.below 2)))
  | .loop c body =>
    ⟨[], Γ, .stmt (.loop c body)⟩ :: (Expr.walkFrom Γ 0 [c] ++
      (Block.walkFrom Γ 0 body).map (.below 1))
  | .call name args => ⟨[], Γ, .stmt (.call name args)⟩ :: Expr.walkFrom Γ 0 args

/-- The stops in statements, the first of which is the `k`-th of a block. What a statement
introduces is known to those behind it. -/
def Block.walkFrom (Γ : Context) (k : Nat) : List Stmt → List Stop
  | [] => []
  | s :: ss =>
    (s.walk Γ).map (.below k) ++ Block.walkFrom (Γ.addAll s.defines?.toList) (k + 1) ss

end

namespace Part

variable {p q c : Part} {Γ : Context} {a : List Nat} {stop : Stop} {i k : Nat}
  {known : Nat → Context}

/-- The stops in a part of a tree. -/
def walk (Γ : Context) : Part → List Stop
  | block b => Block.walkFrom Γ 0 b
  | stmt s => s.walk Γ
  | node e => e.walk Γ

/-- The context of the `i`-th part directly inside a part. -/
def contextOf (Γ : Context) (p : Part) (i : Nat) : Context :=
  match p with
  | block b => Γ.addAll (Block.defined (b.take i))
  | _ => Γ

/-- The context at an address: on the way down, what the statements in front introduce is added at
every block. -/
def contextAt (Γ : Context) : Part → List Nat → Context
  | _, [] => Γ
  | p, i :: a => p.children[i]?.elim Γ fun c => contextAt (contextOf Γ p i) c a

/-! ## One step down -/

/-- The stops in parts that stand side by side, each in a context of its own. -/
def walkFrom (known : Nat → Context) (k : Nat) : List Part → List Stop
  | [] => []
  | c :: cs => (c.walk (known k)).map (.below k) ++ walkFrom known (k + 1) cs

theorem walkFrom_nodes (es : List Expr) :
    Expr.walkFrom Γ k es = walkFrom (fun _ => Γ) k (es.map node) := by
  induction es generalizing k with
  | nil => rfl
  | cons e es ih => rw [Expr.walkFrom, ih]; rfl

theorem walk_node (e : Expr) :
    (node e).walk Γ = walkFrom (contextOf Γ (node e)) 0 (node e).children ++
      [⟨[], Γ, node e⟩] := by
  show e.walk Γ = walkFrom (fun _ => Γ) 0 (e.children.map node) ++ [⟨[], Γ, node e⟩]
  rw [← walkFrom_nodes]
  cases e <;> simp [Expr.walk, Expr.children, Expr.walkFrom]

theorem walk_stmt (s : Stmt) :
    (stmt s).walk Γ =
      ⟨[], Γ, stmt s⟩ :: walkFrom (contextOf Γ (stmt s)) 0 (stmt s).children := by
  show s.walk Γ =
    ⟨[], Γ, stmt s⟩ :: walkFrom (fun _ => Γ) 0 (s.exprs.map node ++ s.blocks.map block)
  cases s <;> simp [Stmt.walk, Stmt.exprs, Stmt.blocks, walkFrom_nodes, walkFrom, walk]

/-- Statements that follow each other in a block, the first of them as the `k`-th. -/
theorem walkFrom_stmts (b : Block) (ss : List Stmt) (h : ss <+: b.drop k) :
    Block.walkFrom (contextOf Γ (block b) k) k ss =
      walkFrom (contextOf Γ (block b)) k (ss.map stmt) := by
  induction ss generalizing k with
  | nil => rfl
  | cons s ss ih =>
    obtain ⟨behind, hbehind⟩ := h
    have hs : b[k]? = some s := by
      rw [← List.head?_drop, ← hbehind, List.cons_append, List.head?_cons]
    have hss : ss <+: b.drop (k + 1) := by
      rw [← List.tail_drop, ← hbehind, List.cons_append, List.tail_cons]
      exact List.prefix_append _ _
    have hnext : (contextOf Γ (block b) k).addAll s.defines?.toList =
        contextOf Γ (block b) (k + 1) := by
      show (Γ.addAll (Block.defined (b.take k))).addAll s.defines?.toList =
        Γ.addAll (Block.defined (b.take (k + 1)))
      rw [← Context.addAll_append, List.take_add_one, hs, Block.defined, Block.defined,
        List.filterMap_append, Option.toList_some, ← Block.defined, ← Block.defined,
        Block.defined_cons, Block.defined_nil, List.append_nil]
    rw [Block.walkFrom, hnext, ih hss]
    rfl

theorem walk_block (b : Block) :
    (block b).walk Γ = walkFrom (contextOf Γ (block b)) 0 (block b).children :=
  walkFrom_stmts (k := 0) b b (List.prefix_refl b)

theorem mem_walkFrom {cs : List Part} :
    stop ∈ walkFrom known k cs ↔
      ∃ (i : Nat) (c : Part), cs[i]? = some c ∧
        ∃ inner ∈ c.walk (known (k + i)), inner.below (k + i) = stop := by
  induction cs generalizing k with
  | nil => simp [walkFrom]
  | cons c cs ih =>
    rw [walkFrom, List.mem_append, List.mem_map, ih]
    constructor
    · rintro (⟨inner, hinner, rfl⟩ | ⟨i, d, hd, inner, hinner, rfl⟩)
      · exact ⟨0, c, rfl, inner, hinner, rfl⟩
      · have hk : k + 1 + i = k + (i + 1) := by omega
        rw [hk] at hinner ⊢
        exact ⟨i + 1, d, hd, inner, hinner, rfl⟩
    · rintro ⟨i, d, hd, inner, hinner, rfl⟩
      cases i with
      | zero =>
        cases hd
        exact Or.inl ⟨inner, hinner, rfl⟩
      | succ i =>
        have hk : k + (i + 1) = k + 1 + i := by omega
        rw [hk] at hinner ⊢
        exact Or.inr ⟨i, d, hd, inner, hinner, rfl⟩

/-- **The stops in a part are itself, unless it is a block, and those in the parts inside it.** -/
theorem mem_walk :
    stop ∈ p.walk Γ ↔ ((∀ b, p ≠ block b) ∧ stop = ⟨[], Γ, p⟩) ∨
      ∃ (i : Nat) (c : Part), p.children[i]? = some c ∧
        ∃ inner ∈ c.walk (contextOf Γ p i), inner.below i = stop := by
  have hinside := @mem_walkFrom stop 0 (contextOf Γ p) p.children
  simp only [Nat.zero_add] at hinside
  cases p with
  | block b => simp [walk_block, hinside]
  | stmt s => simp [walk_stmt, hinside]
  | node e => simp [walk_node, hinside, or_comm]

/-! ## The stops are the statements and the nodes -/

theorem at?_of_mem_walk (h : stop ∈ p.walk Γ) : p.at? stop.address = some stop.part := by
  induction p using induction_children generalizing Γ stop with
  | step p ih =>
    rcases mem_walk.mp h with ⟨-, rfl⟩ | ⟨i, c, hc, inner, hinner, rfl⟩
    · rfl
    · exact (at?_cons_of_child hc).trans (ih c (List.mem_of_getElem? hc) hinner)

theorem ne_block_of_mem_walk (h : stop ∈ p.walk Γ) (b : Block) : stop.part ≠ block b := by
  induction p using induction_children generalizing Γ stop with
  | step p ih =>
    rcases mem_walk.mp h with ⟨hp, rfl⟩ | ⟨i, c, hc, inner, hinner, rfl⟩
    · exact hp b
    · have hinside : inner.part ≠ block b := ih c (List.mem_of_getElem? hc) hinner
      exact hinside

theorem context_of_mem_walk (h : stop ∈ p.walk Γ) : stop.context = contextAt Γ p stop.address := by
  induction p using induction_children generalizing Γ stop with
  | step p ih =>
    rcases mem_walk.mp h with ⟨-, rfl⟩ | ⟨i, c, hc, inner, hinner, rfl⟩
    · rfl
    · have hinside : inner.context = contextAt (contextOf Γ p i) c inner.address :=
        ih c (List.mem_of_getElem? hc) hinner
      rw [Stop.context_below, Stop.address_below, contextAt, hc]
      exact hinside

theorem exists_mem_walk (h : p.at? a = some q) (hq : ∀ b, q ≠ block b) :
    ∃ stop ∈ p.walk Γ, stop.address = a := by
  induction a generalizing p Γ with
  | nil =>
    cases h
    exact ⟨_, mem_walk.mpr (Or.inl ⟨hq, rfl⟩), rfl⟩
  | cons i a ih =>
    obtain ⟨c, hc, ha⟩ := at?_cons_eq_some_iff.mp h
    obtain ⟨inner, hinner, rfl⟩ := ih (Γ := contextOf Γ p i) ha
    exact ⟨inner.below i, mem_walk.mpr (Or.inr ⟨i, c, hc, inner, hinner, rfl⟩), rfl⟩

/-- **The addresses on the walk are those of the statements and of the nodes.** -/
theorem exists_mem_walk_iff :
    (∃ stop ∈ p.walk Γ, stop.address = a) ↔ ∃ q, p.at? a = some q ∧ ∀ b, q ≠ block b := by
  constructor
  · rintro ⟨stop, hstop, rfl⟩
    exact ⟨stop.part, at?_of_mem_walk hstop, ne_block_of_mem_walk hstop⟩
  · rintro ⟨q, hq, hne⟩
    exact exists_mem_walk hq hne

/-! ## The order of the stops -/

/-- What stands at the first address is visited before what stands at the second. -/
inductive Before : Part → List Nat → List Nat → Prop
  /-- What stands further to the left comes first. -/
  | left {p : Part} {i j : Nat} {a b : List Nat} : i < j → Before p (i :: a) (j :: b)
  | inside {p c : Part} {i : Nat} {a b : List Nat} :
      p.children[i]? = some c → Before c a b → Before p (i :: a) (i :: b)
  /-- A statement comes before what is inside it. -/
  | stmt {s : Stmt} {i : Nat} {a : List Nat} : Before (.stmt s) [] (i :: a)
  /-- A node comes behind what is below it. -/
  | node {e : Expr} {i : Nat} {a : List Nat} : Before (.node e) (i :: a) []

theorem Before.irrefl : ¬ p.Before a a := by
  intro h
  induction a generalizing p with
  | nil => cases h
  | cons i a ih =>
    cases h with
    | left hlt => exact Nat.lt_irrefl i hlt
    | inside _ h => exact ih h

theorem address_of_mem_walkFrom {cs : List Part} (h : stop ∈ walkFrom known k cs) :
    ∃ i b, k ≤ i ∧ stop.address = i :: b := by
  obtain ⟨i, c, -, inner, -, rfl⟩ := mem_walkFrom.mp h
  exact ⟨k + i, inner.address, Nat.le_add_right k i, rfl⟩

/-- What stands in order inside each of the parts of `p` does so inside `p`. -/
theorem pairwise_walkFrom (known : Nat → Context)
    (h : ∀ (i : Nat) (c : Part), p.children[i]? = some c →
      (c.walk (known i)).Pairwise fun s t => c.Before s.address t.address)
    {cs : List Part} (hcs : p.children.drop k = cs) :
    (walkFrom known k cs).Pairwise fun s t => p.Before s.address t.address := by
  induction cs generalizing k with
  | nil => exact List.Pairwise.nil
  | cons c cs ih =>
    have hc : p.children[k]? = some c := by
      rw [← List.head?_drop, hcs, List.head?_cons]
    have hrest : p.children.drop (k + 1) = cs := by
      rw [← List.tail_drop, hcs, List.tail_cons]
    rw [walkFrom, List.pairwise_append, List.pairwise_map]
    refine ⟨(h k c hc).imp fun hst => .inside hc hst, ih hrest, ?_⟩
    intro s hs t ht
    obtain ⟨inner, -, rfl⟩ := List.mem_map.mp hs
    obtain ⟨j, b, hj, hb⟩ := address_of_mem_walkFrom ht
    rw [hb]
    exact .left (by omega)

/-- **The stops of the walk stand in the order of visits.** -/
theorem pairwise_walk (p : Part) :
    (p.walk Γ).Pairwise fun s t => p.Before s.address t.address := by
  induction p using induction_children generalizing Γ with
  | step p ih =>
    have hinside := pairwise_walkFrom (k := 0) (contextOf Γ p)
      (fun i c hc => ih c (List.mem_of_getElem? hc)) rfl
    cases p with
    | block b => rw [walk_block]; exact hinside
    | stmt s =>
      rw [walk_stmt, List.pairwise_cons]
      refine ⟨fun t ht => ?_, hinside⟩
      obtain ⟨j, b, -, hb⟩ := address_of_mem_walkFrom ht
      rw [hb]
      exact .stmt
    | node e =>
      rw [walk_node, List.pairwise_append]
      refine ⟨hinside, List.pairwise_singleton _ _, fun s hs t ht => ?_⟩
      obtain ⟨j, b, -, hb⟩ := address_of_mem_walkFrom hs
      rw [List.mem_singleton.mp ht, hb]
      exact .node

/-- **No address stands on the walk twice.** -/
theorem nodup_walk (p : Part) : ((p.walk Γ).map Stop.address).Nodup := by
  refine List.pairwise_map.mpr ((pairwise_walk p).imp fun hst he => ?_)
  rw [he] at hst
  exact Before.irrefl hst

/-- The list has one stop for each statement and each node of the part, in the order of visits. -/
structure IsWalk (Γ : Context) (p : Part) (stops : List Stop) : Prop where
  /-- The addresses are those of the statements and of the nodes. -/
  covers : ∀ a, (∃ stop ∈ stops, stop.address = a) ↔ ∃ q, p.at? a = some q ∧ ∀ b, q ≠ block b
  nodup : (stops.map Stop.address).Nodup
  ordered : stops.Pairwise fun s t => p.Before s.address t.address
  part : ∀ stop ∈ stops, p.at? stop.address = some stop.part
  context : ∀ stop ∈ stops, stop.context = contextAt Γ p stop.address

/-- **The walk is one.** -/
theorem isWalk_walk (Γ : Context) (p : Part) : p.IsWalk Γ (p.walk Γ) where
  covers := fun _ => exists_mem_walk_iff
  nodup := nodup_walk p
  ordered := pairwise_walk p
  part := fun _ => at?_of_mem_walk
  context := fun _ => context_of_mem_walk

/-! ## What does not depend on slots -/

theorem map_address_walkFrom_bare (known known' : Nat → Context) {cs : List Part}
    (h : ∀ c ∈ cs, ∀ Γ Δ : Context,
      (c.bare.walk Γ).map Stop.address = (c.walk Δ).map Stop.address) :
    (walkFrom known k (cs.map bare)).map Stop.address =
      (walkFrom known' k cs).map Stop.address := by
  induction cs generalizing k with
  | nil => rfl
  | cons c cs ih =>
    have hc := h c List.mem_cons_self (known k) (known' k)
    have hcs := ih (k := k + 1) fun d hd => h d (List.mem_cons_of_mem c hd)
    have hbelow : Stop.address ∘ Stop.below k = (k :: ·) ∘ Stop.address := rfl
    rw [List.map_cons, walkFrom, walkFrom, List.map_append, List.map_append, hcs, List.map_map,
      List.map_map, hbelow, ← List.map_map, ← List.map_map, hc]

/-- The walk goes the same way whatever the slots hold and whatever is known. -/
theorem map_address_walk_bare (p : Part) (Γ Δ : Context) :
    (p.bare.walk Γ).map Stop.address = (p.walk Δ).map Stop.address := by
  induction p using induction_children generalizing Γ Δ with
  | step p ih =>
    have hinside := map_address_walkFrom_bare (k := 0) (contextOf Γ p.bare) (contextOf Δ p) ih
    rw [← children_bare] at hinside
    cases p with
    | block b => rw [bare, walk_block, walk_block]; exact hinside
    | stmt s =>
      rw [bare, walk_stmt, walk_stmt, List.map_cons, List.map_cons]
      exact congrArg ([] :: ·) hinside
    | node e =>
      rw [bare, walk_node, walk_node, List.map_append, List.map_append]
      exact congrArg (· ++ [[]]) hinside

/-! ## The statements on the walk -/

/-- The statement, if the part is one. -/
def stmt? : Part → Option Stmt
  | stmt s => some s
  | _ => none

/-- Below a node there are nodes only. -/
theorem exists_node_of_at? {e : Expr} (h : (node e).at? a = some q) : ∃ n, q = node n := by
  induction a generalizing e with
  | nil =>
    cases h
    exact ⟨e, rfl⟩
  | cons i a ih =>
    obtain ⟨c, hc, hq⟩ := at?_cons_eq_some_iff.mp h
    obtain ⟨n, -, rfl⟩ := List.mem_map.mp (List.mem_of_getElem? hc)
    exact ih hq

end Part

namespace Stop

/-- The statements among the stops. -/
def stmts (stops : List Stop) : List Stmt := stops.filterMap fun stop => stop.part.stmt?

@[simp] theorem stmts_append (left right : List Stop) :
    stmts (left ++ right) = stmts left ++ stmts right := List.filterMap_append

@[simp] theorem stmts_map_below (i : Nat) (stops : List Stop) :
    stmts (stops.map (.below i)) = stmts stops := List.filterMap_map

@[simp] theorem stmts_cons_stmt {Γ : Context} {a : List Nat} {s : Stmt} (stops : List Stop) :
    stmts (⟨a, Γ, .stmt s⟩ :: stops) = s :: stmts stops := rfl

@[simp] theorem stmts_walkFrom_exprs {Γ : Context} {k : Nat} (es : List Expr) :
    stmts (Expr.walkFrom Γ k es) = [] := by
  refine List.filterMap_eq_nil_iff.mpr fun stop hstop => ?_
  rw [Part.walkFrom_nodes] at hstop
  obtain ⟨i, c, hc, inner, hinner, rfl⟩ := Part.mem_walkFrom.mp hstop
  obtain ⟨e, -, rfl⟩ := List.mem_map.mp (List.mem_of_getElem? hc)
  obtain ⟨n, hn⟩ := Part.exists_node_of_at? (Part.at?_of_mem_walk hinner)
  rw [part_below, hn]
  rfl

end Stop

mutual

theorem Stmt.stmts_walk : (s : Stmt) → ∀ {Γ : Context}, Stop.stmts (s.walk Γ) = s.stmts
  | .define _ _, _ => by simp [Stmt.walk, Stmt.stmts]
  | .assign _ _, _ => by simp [Stmt.walk, Stmt.stmts]
  | .ret _, _ => by simp [Stmt.walk, Stmt.stmts]
  | .branch _ thenBlock elseBlock, _ => by
    simp [Stmt.walk, Stmt.stmts, Block.stmts_walkFrom thenBlock, Block.stmts_walkFrom elseBlock]
  | .loop _ body, _ => by simp [Stmt.walk, Stmt.stmts, Block.stmts_walkFrom body]
  | .call _ _, _ => by simp [Stmt.walk, Stmt.stmts]

/-- **The statements on the walk through a block are its statements from the outside in.** -/
theorem Block.stmts_walkFrom : (ss : List Stmt) → ∀ {Γ : Context} {k : Nat},
    Stop.stmts (Block.walkFrom Γ k ss) = Block.stmts ss
  | [], _, _ => by rw [Block.walkFrom, Block.stmts]; rfl
  | s :: ss, _, _ => by
    rw [Block.walkFrom, Block.stmts, Stop.stmts_append, Stop.stmts_map_below, Stmt.stmts_walk s,
      Block.stmts_walkFrom ss]

end

end BlockLang
