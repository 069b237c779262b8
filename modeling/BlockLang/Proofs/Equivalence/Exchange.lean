import BlockLang.Proofs.Typing.Locality

/-!
# Statements that may change places

Two neighbours in a block may change places if neither has anything to do with the variable that the
other introduces (`checkBlock_exchange`). This asks for the whole of a statement: a branch that
introduces a variable in one of its arms may stand in front of a definition of this variable, and
not behind it.

In the two orders the contexts differ between the neighbours and are the same again behind them.
That the first difference does not matter is a case of locality: a variable that does not occur in a
statement may be declared in front of it or not (`checkStmt_addAll_of_not_involves`). The contexts
behind them declare the same variables, though not in the same order, which nothing asks for
(`checkBlock_of_declares_iff`).
-/

namespace BlockLang

/-! ## Occurrences -/

/-- The variables that are read in an expression, at any depth and in order. -/
def Expr.symbols (e : Expr) : List Symbol := e.nodes.filterMap Expr.reads?

/-- The variables of a statement and of those inside it: the ones that they introduce, assign and
read. -/
def Stmt.symbols (s : Stmt) : List Symbol :=
  s.stmts.flatMap fun r =>
    r.defines?.toList ++ (r.assigns?.toList ++ (Expr.nodesIn r.exprs).filterMap Expr.reads?)

/-- The variable is read in the expression. Only its identity counts. -/
def Expr.Involves (e : Expr) (x : Symbol) : Prop := x.id ∈ e.symbols.map Symbol.id

/-- The variable occurs in the statement, at any depth. Only its identity counts. -/
def Stmt.Involves (s : Stmt) (x : Symbol) : Prop := x.id ∈ s.symbols.map Symbol.id

/-- Neither statement involves the variable that the other one introduces. -/
def Stmt.Independent (s₁ s₂ : Stmt) : Prop :=
  (∀ x ∈ s₁.defines?, ¬ s₂.Involves x) ∧ ∀ x ∈ s₂.defines?, ¬ s₁.Involves x

instance (e : Expr) (x : Symbol) : Decidable (e.Involves x) :=
  inferInstanceAs (Decidable (x.id ∈ e.symbols.map Symbol.id))

instance (s : Stmt) (x : Symbol) : Decidable (s.Involves x) :=
  inferInstanceAs (Decidable (x.id ∈ s.symbols.map Symbol.id))

instance (s₁ s₂ : Stmt) : Decidable (s₁.Independent s₂) := instDecidableAnd

theorem Expr.involves_iff {e : Expr} {x : Symbol} :
    e.Involves x ↔ ∃ n ∈ e.nodes, ∃ y, n.reads? = some y ∧ y.id = x.id := by
  simp only [Involves, symbols, List.mem_map, List.mem_filterMap]
  constructor
  · rintro ⟨y, ⟨n, hn, hy⟩, hid⟩
    exact ⟨n, hn, y, hy, hid⟩
  · rintro ⟨n, hn, y, hy, hid⟩
    exact ⟨y, ⟨n, hn, hy⟩, hid⟩

theorem Stmt.involves_iff {s : Stmt} {x : Symbol} :
    s.Involves x ↔ ∃ r ∈ s.stmts, ∃ y, r.Mentions y ∧ y.id = x.id := by
  simp only [Involves, symbols, List.mem_map, List.mem_flatMap, List.mem_append,
    List.mem_filterMap, Option.mem_toList, Expr.mem_nodesIn, Mentions, Uses]
  constructor
  · rintro ⟨y, ⟨r, hr, hd | ha | ⟨n, ⟨e, he, hn⟩, hy⟩⟩, hid⟩
    · exact ⟨r, hr, y, Or.inl hd, hid⟩
    · exact ⟨r, hr, y, Or.inr (Or.inl ha), hid⟩
    · exact ⟨r, hr, y, Or.inr (Or.inr ⟨e, he, n, hn, hy⟩), hid⟩
  · rintro ⟨r, hr, y, hd | ha | ⟨e, he, n, hn, hy⟩, hid⟩
    · exact ⟨y, ⟨r, hr, Or.inl hd⟩, hid⟩
    · exact ⟨y, ⟨r, hr, Or.inr (Or.inl ha)⟩, hid⟩
    · exact ⟨y, ⟨r, hr, Or.inr (Or.inr ⟨n, ⟨e, he, hn⟩, hy⟩)⟩, hid⟩

theorem Stmt.Independent.symm {s₁ s₂ : Stmt} (h : s₁.Independent s₂) : s₂.Independent s₁ :=
  ⟨h.2, h.1⟩

namespace Context

variable {Γ Δ : Context} {xs : List Symbol} {e : Expr} {s s₁ s₂ : Stmt}

/-! ## Variables that do not occur -/

/-- Variables of other identities are declared as before. -/
theorem declares_addAll_of_ne {y : Symbol} (h : ∀ x ∈ xs, y.id ≠ x.id) :
    Γ.Declares y ↔ (Γ.addAll xs).Declares y := by
  rw [declares_addAll]
  refine ⟨Or.inr, fun hy => hy.resolve_left fun hmem => ?_⟩
  obtain ⟨x, hx, hid⟩ := List.mem_map.mp hmem
  exact h x hx hid.symm

/-- **A statement is checked alike with and without variables that do not occur in it.** -/
theorem checkStmt_addAll_of_not_involves (h : ∀ x ∈ xs, ¬ s.Involves x) :
    ((Γ.addAll xs).checkStmt s).toVisit = (Γ.checkStmt s).toVisit := by
  have hagrees : ∀ r ∈ s.stmts, Γ.AgreesAt (Γ.addAll xs) r := by
    intro r hr
    refine ⟨fun y hy => ?_, fun _ _ => by rw [signatures_addAll], fun _ => by rw [returns_addAll]⟩
    exact declares_addAll_of_ne fun x hx hid => h x hx (Stmt.involves_iff.mpr ⟨r, hr, y, hy, hid⟩)
  have hblocks : ∀ b ∈ s.blocks,
      (Γ.checkBlock b).toVisit = ((Γ.addAll xs).checkBlock b).toVisit := by
    intro b hb
    refine (checkBlock_matches fun r hr => ?_).visit
    exact hagrees r (Stmt.mem_stmts.mpr (Or.inr ⟨b, hb, hr⟩))
  exact (checkStmt_matches (hagrees s (Stmt.mem_stmts.mpr (Or.inl rfl))) hblocks).visit.symm

/-- **Which variables are declared is all that a block asks of a scope.** -/
theorem checkBlock_of_declares_iff (hsig : Γ.signatures = Δ.signatures)
    (hret : Γ.returns = Δ.returns) (h : ∀ x, Γ.Declares x ↔ Δ.Declares x) (block : Block) :
    (Γ.checkBlock block).toVisit = (Δ.checkBlock block).toVisit := by
  have hagrees : Γ.AgreesOn Δ block :=
    fun s _ => ⟨fun x _ => h x, fun name _ => by rw [hsig], fun _ => hret⟩
  exact (checkBlock_matches hagrees).visit

/-! ## Blocks in two parts -/

/-- **A block in two parts**: the second part starts with what the first one introduces. -/
theorem toVisit_checkBlock_append (pre post : Block) :
    (Γ.checkBlock (pre ++ post)).toVisit =
      (Γ.checkBlock pre).toVisit.andThen (· ++ post) fun _ =>
        ⟨((Γ.addAll (Block.defined pre)).checkBlock post).result,
          (Γ.checkBlock pre).node ++ ((Γ.addAll (Block.defined pre)).checkBlock post).node,
          ((Γ.addAll (Block.defined pre)).checkBlock post).log⟩ := by
  induction pre generalizing Γ with
  | nil =>
    have hnil : (Γ.checkBlock []).toVisit = ⟨.ok (), [], []⟩ := by rw [checkBlock]
    rw [hnil]
    rfl
  | cons s ss ih =>
    rw [List.cons_append, toVisit_checkBlock_cons, toVisit_checkBlock_cons, Block.defined_cons,
      addAll_append, ih]
    cases hs : (Γ.checkStmt s).result with
    | error e =>
      rw [Visit.andThen_error hs, Visit.andThen_error hs]
      rfl
    | ok _ =>
      rw [Visit.andThen_ok hs, Visit.andThen_ok hs]
      cases hss : ((Γ.addAll s.defines?.toList).checkBlock ss).result with
      | error e => rw [Visit.andThen_error hss]; rfl
      | ok _ => rw [Visit.andThen_ok hss]; simp [Visit.andThen]

theorem checkBlock_append_eq_ok_iff {pre post : Block} :
    (Γ.checkBlock (pre ++ post)).result = .ok () ↔
      (Γ.checkBlock pre).result = .ok () ∧
        ((Γ.addAll (Block.defined pre)).checkBlock post).result = .ok () := by
  rw [toVisit_checkBlock_append, Visit.andThen_eq_ok_iff]
  exact ⟨fun ⟨_, hpre, hpost⟩ => ⟨hpre, hpost⟩, fun ⟨hpre, hpost⟩ => ⟨(), hpre, hpost⟩⟩

theorem node_checkBlock_append_of_ok {pre : Block} (h : (Γ.checkBlock pre).result = .ok ())
    (post : Block) :
    (Γ.checkBlock (pre ++ post)).node =
      (Γ.checkBlock pre).node ++ ((Γ.addAll (Block.defined pre)).checkBlock post).node := by
  rw [toVisit_checkBlock_append, Visit.node_andThen_of_ok h]

/-! ## Neighbours -/

/-- Variables may be added in either order, as long as only what is declared counts. -/
theorem checkBlock_addAll_comm (xs ys : List Symbol) (post : Block) :
    (((Γ.addAll xs).addAll ys).checkBlock post).toVisit =
      (((Γ.addAll ys).addAll xs).checkBlock post).toVisit := by
  refine checkBlock_of_declares_iff ?_ ?_ (fun x => ?_) post
  · simp only [signatures_addAll]
  · simp only [returns_addAll]
  · simp only [declares_addAll]
    exact or_left_comm

/-- Two independent neighbours are checked one by one in the context in front of them. -/
theorem checkBlock_neighbours_eq_ok_iff (h : s₁.Independent s₂) {post : Block} :
    (Γ.checkBlock (s₁ :: s₂ :: post)).result = .ok () ↔
      (Γ.checkStmt s₁).result = .ok () ∧ (Γ.checkStmt s₂).result = .ok () ∧
        (((Γ.addAll s₁.defines?.toList).addAll s₂.defines?.toList).checkBlock post).result =
          .ok () := by
  rw [checkBlock_cons_eq_ok_iff, checkBlock_cons_eq_ok_iff,
    checkStmt_addAll_of_not_involves fun x hx => h.1 x (Option.mem_toList.mp hx)]

theorem node_checkBlock_neighbours (h : s₁.Independent s₂) (h₁ : (Γ.checkStmt s₁).result = .ok ())
    (h₂ : (Γ.checkStmt s₂).result = .ok ()) (post : Block) :
    (Γ.checkBlock (s₁ :: s₂ :: post)).node =
      (Γ.checkStmt s₁).node :: (Γ.checkStmt s₂).node ::
        (((Γ.addAll s₁.defines?.toList).addAll s₂.defines?.toList).checkBlock post).node := by
  have hvisit : ((Γ.addAll s₁.defines?.toList).checkStmt s₂).toVisit = (Γ.checkStmt s₂).toVisit :=
    checkStmt_addAll_of_not_involves fun x hx => h.1 x (Option.mem_toList.mp hx)
  rw [node_checkBlock_cons_of_ok h₁, node_checkBlock_cons_of_ok (by rw [hvisit]; exact h₂), hvisit]

/-- Independent neighbours are accepted in the one order exactly when they are in the other. -/
theorem checkBlock_neighbours_comm (h : s₁.Independent s₂) {post : Block} :
    (Γ.checkBlock (s₁ :: s₂ :: post)).result = .ok () ↔
      (Γ.checkBlock (s₂ :: s₁ :: post)).result = .ok () := by
  rw [checkBlock_neighbours_eq_ok_iff h, checkBlock_neighbours_eq_ok_iff h.symm,
    checkBlock_addAll_comm, and_left_comm]

/--
**Independent neighbours may change places.**

If neither of two neighbours involves the variable that the other one introduces, a block is
accepted with them in the one order exactly when it is in the other. Then the same variables are
declared behind it, and every node has the same type recorded. Nothing is asked about returns: what
can be reached is no concern of the checker.
-/
theorem checkBlock_exchange (Γ : Context) (pre post : Block) (s₁ s₂ : Stmt)
    (h : s₁.Independent s₂) :
    ((Γ.checkBlock (pre ++ s₁ :: s₂ :: post)).result = .ok () ↔
      (Γ.checkBlock (pre ++ s₂ :: s₁ :: post)).result = .ok ()) ∧
    ((Γ.checkBlock (pre ++ s₁ :: s₂ :: post)).result = .ok () →
      (∀ x, (Γ.checkBlock (pre ++ s₁ :: s₂ :: post)).context.Declares x ↔
        (Γ.checkBlock (pre ++ s₂ :: s₁ :: post)).context.Declares x) ∧
      ∃ pre' s₁' s₂' post',
        (Block.bare pre' = Block.bare pre ∧ s₁'.bare = s₁.bare ∧ s₂'.bare = s₂.bare ∧
          Block.bare post' = Block.bare post) ∧
        (Γ.checkBlock (pre ++ s₁ :: s₂ :: post)).node = pre' ++ s₁' :: s₂' :: post' ∧
        (Γ.checkBlock (pre ++ s₂ :: s₁ :: post)).node = pre' ++ s₂' :: s₁' :: post') := by
  have hverdict : (Γ.checkBlock (pre ++ s₁ :: s₂ :: post)).result = .ok () ↔
      (Γ.checkBlock (pre ++ s₂ :: s₁ :: post)).result = .ok () := by
    rw [checkBlock_append_eq_ok_iff, checkBlock_append_eq_ok_iff, checkBlock_neighbours_comm h]
  refine ⟨hverdict, fun hok => ⟨fun x => ?_, ?_⟩⟩
  · have hperm : (Block.defined (pre ++ s₁ :: s₂ :: post)).Perm
        (Block.defined (pre ++ s₂ :: s₁ :: post)) :=
      ((List.Perm.swap s₂ s₁ post).append_left pre).filterMap Stmt.defines?
    rw [context_checkBlock_of_ok hok, context_checkBlock_of_ok (hverdict.mp hok), declares_addAll,
      declares_addAll, (hperm.map Symbol.id).mem_iff]
  · obtain ⟨hpre, hrest⟩ := checkBlock_append_eq_ok_iff.mp hok
    obtain ⟨h₁, h₂, -⟩ := (checkBlock_neighbours_eq_ok_iff h).mp hrest
    have hnode := node_checkBlock_append_of_ok hpre (s₁ :: s₂ :: post)
    have hnode' := node_checkBlock_append_of_ok hpre (s₂ :: s₁ :: post)
    rw [node_checkBlock_neighbours h h₁ h₂] at hnode
    -- behind the neighbours only the order of what is declared differs
    rw [node_checkBlock_neighbours h.symm h₂ h₁, checkBlock_addAll_comm] at hnode'
    refine ⟨_, _, _, _, ⟨?_, ?_, ?_, ?_⟩, hnode, hnode'⟩
    · exact bare_node_checkBlock pre
    · exact bare_node_checkStmt s₁
    · exact bare_node_checkStmt s₂
    · exact bare_node_checkBlock post

/-- The variable `x` of a branch. -/
def armVar : Symbol := ⟨⟨0⟩, "x", .bool⟩

/-- The variable `y` of its neighbour. -/
def neighbourVar : Symbol := ⟨⟨1⟩, "y", .bool⟩

/-- A branch that introduces `x` in one of its arms. -/
def armBranch : Stmt :=
  .branch (.const none (.bool true)) [.define armVar none, .assign armVar (.var none armVar)] []

/-- The definition of `y` may stand in front of the branch as well, with a loop on `y` behind. -/
theorem armBranch_exchange :
    let neighbour : Stmt := .define neighbourVar (some (.const none (.bool false)))
    let post : Block := [.loop (.var none neighbourVar) [.define armVar none]]
    armBranch.Independent neighbour ∧
      (checkBlock {} (armBranch :: neighbour :: post)).result = .ok () ∧
      (checkBlock {} (neighbour :: armBranch :: post)).result = .ok () ∧
      ∀ x, (checkBlock {} (armBranch :: neighbour :: post)).context.Declares x ↔
        (checkBlock {} (neighbour :: armBranch :: post)).context.Declares x := by
  intro neighbour post
  have hindependent : armBranch.Independent neighbour := by decide
  have hok : (checkBlock {} (armBranch :: neighbour :: post)).result = .ok () := rfl
  obtain ⟨hverdict, hsame⟩ := checkBlock_exchange {} [] post armBranch neighbour hindependent
  exact ⟨hindependent, hok, hverdict.mp hok, (hsame hok).1⟩

/-- A definition of `x` itself may stand behind the branch, and not in front of it. -/
example :
    ¬ armBranch.Independent (.define armVar none) ∧
      (checkBlock {} [armBranch, .define armVar none]).result = .ok () ∧
      (checkBlock {} [.define armVar none, armBranch]).result = .error (.redeclared "x") :=
  ⟨by decide, rfl, rfl⟩

end Context

end BlockLang
