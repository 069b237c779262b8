import BlockLang.Proofs.Typing.Verdict

/-!
# What slots hold beforehand does not matter

Slots are written by typing and never read by it. Two statements make that precise, for expressions,
statements, blocks and functions alike:

* a visit changes nothing but slots: the tree that it leaves is, once bare, the tree that it was
  given (`bare_node_infer`, `bare_node_checkBlock`);
* visits of a tree and of the bare tree **agree**: they have the same verdict and the same log, and
  after a good verdict they leave the same tree, recorded types included (`infer_bare_agrees`,
  `checkFunction_bare_agrees`).

After a bad verdict the trees may differ, as the nodes that were not reached keep what they held.
-/

namespace BlockLang

/-! ## Visits that agree -/

namespace Visit

variable {ρ σ τ α β : Type}

/-- The visits have the same verdict and log, and leave the same part if the verdict is good. -/
structure Agrees (v w : Visit ρ α) : Prop where
  result : v.result = w.result
  log : v.log = w.log
  node : ∀ a, v.result = .ok a → v.node = w.node

theorem Agrees.refl (v : Visit ρ α) : v.Agrees v := ⟨rfl, rfl, fun _ _ => rfl⟩

theorem Agrees.entering {v w : Visit ρ α} (h : v.Agrees w) (event : Event) :
    (v.entering event).Agrees (w.entering event) :=
  ⟨h.result, by rw [log_entering, log_entering, h.log], h.node⟩

/-- What is made of the verdict and of the part does not disturb agreement. -/
theorem Agrees.map {v w : Visit ρ α} (h : v.Agrees w) (g : ρ → σ) (f : α → β) :
    (⟨v.result.map g, f v.node, v.log⟩ : Visit σ β).Agrees ⟨w.result.map g, f w.node, w.log⟩ := by
  refine ⟨by rw [h.result], h.log, ?_⟩
  intro b hb
  cases hv : v.result with
  | error e => rw [hv] at hb; cases hb
  | ok a => rw [h.node a hv]

theorem Agrees.mapNode {v w : Visit ρ α} (h : v.Agrees w) (f : α → β) :
    (⟨v.result, f v.node, v.log⟩ : Visit ρ β).Agrees ⟨w.result, f w.node, w.log⟩ :=
  ⟨h.result, h.log, fun a ha => by rw [h.node a ha]⟩

/-- Visits that agree may be continued by visits that agree. What is left after a failure plays no
part. -/
theorem Agrees.andThen {v w : Visit ρ α} (h : v.Agrees w) {stopped stopped' : α → β}
    {next next' : ρ → Visit σ β} (hn : ∀ a, v.result = .ok a → (next a).Agrees (next' a)) :
    (v.andThen stopped next).Agrees (w.andThen stopped' next') := by
  cases hv : v.result with
  | error e =>
    rw [andThen_error hv, andThen_error (h.result.symm.trans hv)]
    exact ⟨rfl, h.log, fun a ha => absurd ha (by simp)⟩
  | ok a =>
    rw [andThen_ok hv, andThen_ok (h.result.symm.trans hv)]
    obtain ⟨hr, hl, hnode⟩ := hn a hv
    exact ⟨hr, by rw [h.log, hl], hnode⟩

theorem Agrees.guarded {rule : Except TypeError σ} {node node' : α} {next next' : σ → Visit ρ α}
    (hn : ∀ a, rule = .ok a → (next a).Agrees (next' a)) :
    (guarded rule node next).Agrees (guarded rule node' next') := by
  cases rule with
  | error e => exact ⟨rfl, rfl, fun a ha => absurd ha (by simp)⟩
  | ok a => exact hn a rfl

theorem Agrees.settle {result : Except TypeError Ty} {node node' : Expr}
    (h : ∀ t, node.record t = node'.record t) :
    (settle result node).Agrees (settle result node') := by
  cases result with
  | error e => exact ⟨rfl, rfl, fun a ha => absurd ha (by simp)⟩
  | ok t => exact ⟨rfl, rfl, fun _ _ => h t⟩

/-! ## Nodes of composed visits -/

/-- What is the same of the part in both outcomes is so in the end. -/
theorem view_node_andThen {γ : Type} {f : β → γ} {c : γ} {v : Visit ρ α} {stopped : α → β}
    {next : ρ → Visit σ β} (hs : f (stopped v.node) = c) (hn : ∀ a, f (next a).node = c) :
    f (v.andThen stopped next).node = c := by
  cases hv : v.result with
  | error e => rw [andThen_error hv]; exact hs
  | ok a => rw [andThen_ok hv]; exact hn a

theorem view_node_guarded {γ : Type} {f : α → γ} {c : γ} {rule : Except TypeError σ} {node : α}
    {next : σ → Visit ρ α} (hs : f node = c) (hn : ∀ a, f (next a).node = c) :
    f (guarded rule node next).node = c := by
  cases rule with
  | error e => exact hs
  | ok a => exact hn a

theorem bare_node_settle (result : Except TypeError Ty) (node : Expr) :
    (settle result node).node.bare = node.bare := by
  cases result with
  | error e => rfl
  | ok t => exact Expr.bare_record t node

end Visit

namespace Context

variable {Γ : Context}

/-! ## Expressions -/

mutual

/-- **Inference changes nothing but slots.** -/
theorem bare_node_infer : (e : Expr) → (Γ.infer e).node.bare = e.bare
  | .const s c => by
    rw [infer, Visit.bare_node_settle]
  | .var s x => by
    rw [infer, Visit.bare_node_settle]
  | .binary s op l r => by
    rw [infer]
    refine Visit.view_node_andThen ?_ fun lt => Visit.view_node_andThen ?_ fun rt => ?_
    · rw [Expr.bare, Expr.bare, bare_node_infer l]
    · rw [Expr.bare, Expr.bare, bare_node_infer l, bare_node_infer r]
    · rw [Visit.bare_node_settle, Expr.bare, Expr.bare, bare_node_infer l, bare_node_infer r]
  | .not s a => by
    rw [infer]
    refine Visit.view_node_andThen ?_ fun t => ?_
    · rw [Expr.bare, Expr.bare, bare_node_infer a]
    · rw [Visit.bare_node_settle, Expr.bare, Expr.bare, bare_node_infer a]
  | .get s a f => by
    rw [infer]
    refine Visit.view_node_andThen ?_ fun t => ?_
    · rw [Expr.bare, Expr.bare, bare_node_infer a]
    · rw [Visit.bare_node_settle, Expr.bare, Expr.bare, bare_node_infer a]
  | .set s a f v => by
    rw [infer]
    refine Visit.view_node_andThen ?_ fun t => Visit.view_node_guarded ?_ fun element =>
      Visit.view_node_andThen ?_ fun found => ?_
    · rw [Expr.bare, Expr.bare, bare_node_infer a]
    · rw [Expr.bare, Expr.bare, bare_node_infer a]
    · rw [Expr.bare, Expr.bare, bare_node_infer a, bare_node_infer v]
    · rw [Visit.bare_node_settle, Expr.bare, Expr.bare, bare_node_infer a, bare_node_infer v]
  | .deref s p => by
    rw [infer]
    refine Visit.view_node_andThen ?_ fun t => ?_
    · rw [Expr.bare, Expr.bare, bare_node_infer p]
    · rw [Visit.bare_node_settle, Expr.bare, Expr.bare, bare_node_infer p]
  | .call s name args => by
    have hargs : Expr.bareAll (Γ.checkCall name args).node = Expr.bareAll args := by
      rw [checkCall]
      exact Visit.view_node_guarded rfl fun sig => bareAll_node_inferArgs args
    rw [infer_call]
    refine Visit.view_node_andThen ?_ fun ret => ?_
    · rw [Expr.bare, Expr.bare, hargs]
    · rw [Visit.bare_node_settle, Expr.bare, Expr.bare, hargs]

theorem bareAll_node_inferArgs : (es : List Expr) → ∀ {name : String} {ret : ReturnTy} {k : Nat}
    {ts : List Ty}, Expr.bareAll (Γ.inferArgs name ret k es ts).node = Expr.bareAll es
  | [], _, _, _, _ => by rw [inferArgs]
  | _ :: _, _, _, _, [] => by rw [inferArgs]
  | a :: as, _, _, _, t :: ts => by
    rw [inferArgs]
    refine Visit.view_node_andThen ?_ fun found => ?_
    · rw [Expr.bareAll, Expr.bareAll, bare_node_infer a]
    · by_cases hf : found = t
      · rw [if_pos hf, Expr.bareAll, Expr.bareAll, bare_node_infer a, bareAll_node_inferArgs as]
      · rw [if_neg hf, Expr.bareAll, Expr.bareAll, bare_node_infer a]

end

/-- A call agrees with the bare call if its arguments do, as soon as there are as many as
parameters. -/
theorem checkCall_bare_agrees_of {n : String} {args : List Expr}
    (h : ∀ {ret : ReturnTy} {ts : List Ty}, args.length = ts.length →
      (Γ.inferArgs n ret 0 (Expr.bareAll args) ts).Agrees (Γ.inferArgs n ret 0 args ts)) :
    (Γ.checkCall n (Expr.bareAll args)).Agrees (Γ.checkCall n args) := by
  rw [checkCall, checkCall, Expr.length_bareAll]
  exact .guarded fun sig hs => h (callee_eq_ok_iff.mp hs).2.symm

mutual

/-- **Inference gives the same answer, and the same recorded types, whatever the slots held.** -/
theorem infer_bare_agrees : (e : Expr) → (Γ.infer e.bare).Agrees (Γ.infer e)
  | .const s c => by
    rw [Expr.bare, infer, infer]
    exact .settle fun _ => rfl
  | .var s x => by
    rw [Expr.bare, infer, infer]
    exact .settle fun _ => rfl
  | .binary s op l r => by
    rw [Expr.bare, infer, infer]
    refine (infer_bare_agrees l).andThen fun lt hl => (infer_bare_agrees r).andThen fun rt hr => ?_
    rw [(infer_bare_agrees l).node lt hl, (infer_bare_agrees r).node rt hr]
    exact .settle fun _ => rfl
  | .not s a => by
    rw [Expr.bare, infer, infer]
    refine (infer_bare_agrees a).andThen fun t ha => ?_
    rw [(infer_bare_agrees a).node t ha]
    exact .settle fun _ => rfl
  | .get s a f => by
    rw [Expr.bare, infer, infer]
    refine (infer_bare_agrees a).andThen fun t ha => ?_
    rw [(infer_bare_agrees a).node t ha]
    exact .settle fun _ => rfl
  | .set s a f v => by
    rw [Expr.bare, infer, infer]
    refine (infer_bare_agrees a).andThen fun t ha => .guarded fun element _ =>
      (infer_bare_agrees v).andThen fun found hv => ?_
    rw [(infer_bare_agrees a).node t ha, (infer_bare_agrees v).node found hv]
    exact .settle fun _ => rfl
  | .deref s p => by
    rw [Expr.bare, infer, infer]
    refine (infer_bare_agrees p).andThen fun t hp => ?_
    rw [(infer_bare_agrees p).node t hp]
    exact .settle fun _ => rfl
  | .call s name args => by
    rw [Expr.bare, infer_call, infer_call]
    have hcall := checkCall_bare_agrees_of (n := name) (inferArgs_bare_agrees args)
    refine hcall.andThen fun ret hr => ?_
    rw [hcall.node ret hr]
    exact .settle fun _ => rfl

/-- As many arguments as parameters are needed: arguments without a parameter are not visited. -/
theorem inferArgs_bare_agrees : (es : List Expr) → ∀ {name : String} {ret : ReturnTy} {k : Nat}
    {ts : List Ty}, es.length = ts.length →
    (Γ.inferArgs name ret k (Expr.bareAll es) ts).Agrees (Γ.inferArgs name ret k es ts)
  | [], _, _, _, _, _ => by
    rw [Expr.bareAll]
    exact .refl _
  | _ :: _, _, _, _, [], hlen => by cases hlen
  | a :: as, name, ret, k, t :: ts, hlen => by
    rw [Expr.bareAll, inferArgs, inferArgs]
    have hrest : (Γ.inferArgs name ret (k + 1) (Expr.bareAll as) ts).Agrees
        (Γ.inferArgs name ret (k + 1) as ts) := inferArgs_bare_agrees as (Nat.succ.inj hlen)
    refine (infer_bare_agrees a).andThen fun found ha => ?_
    by_cases hf : found = t
    · rw [if_pos hf, if_pos hf, (infer_bare_agrees a).node found ha]
      exact hrest.mapNode fun as' => (Γ.infer a).node :: as'
    · rw [if_neg hf, if_neg hf]
      exact ⟨rfl, rfl, fun _ hc => absurd hc (by simp)⟩

end

theorem checkCall_bare_agrees (name : String) (args : List Expr) :
    (Γ.checkCall name (Expr.bareAll args)).Agrees (Γ.checkCall name args) :=
  checkCall_bare_agrees_of (inferArgs_bare_agrees args)

/-! ## Heads of statements -/

theorem toVisit_checkDefine_none (x : Symbol) :
    (Γ.checkDefine x none).toVisit = .guarded (Γ.declare x) none fun _ => ⟨.ok (), none, []⟩ := by
  rw [checkDefine]
  cases Γ.declare x <;> rfl

/-- A definition visits its value, then declares its variable, then compares the types. -/
theorem toVisit_checkDefine_some (x : Symbol) (a : Expr) :
    (Γ.checkDefine x (some a)).toVisit =
      (Γ.infer a).andThen some fun found =>
        .guarded (Γ.declare x) (some (Γ.infer a).node) fun _ =>
          ⟨x.ty.expect found, some (Γ.infer a).node, []⟩ := by
  cases hr : (Γ.infer a).result with
  | error e => simp only [checkDefine, hr, Visit.andThen_error hr]
  | ok found =>
    rw [Visit.andThen_ok hr]
    cases hd : Γ.declare x with
    | error e => simp [checkDefine, hr, hd]
    | ok Δ => simp [checkDefine, hr, hd]

theorem bare_node_checkDefine (x : Symbol) (value : Option Expr) :
    (Γ.checkDefine x value).node.map Expr.bare = value.map Expr.bare := by
  cases value with
  | none =>
    rw [checkDefine]
    cases Γ.declare x <;> rfl
  | some a =>
    have hbare : (some (Γ.infer a).node).map Expr.bare = (some a).map Expr.bare := by
      rw [Option.map_some, Option.map_some, bare_node_infer a]
    rw [toVisit_checkDefine_some]
    exact Visit.view_node_andThen hbare fun _ => Visit.view_node_guarded hbare fun _ => hbare

theorem bare_node_checkReturn (value : Option Expr) :
    (Γ.checkReturn value).node.map Expr.bare = value.map Expr.bare := by
  cases hr : Γ.returns with
  | void => cases value <;> simp only [checkReturn, hr]
  | value expected =>
    cases value with
    | none => simp only [checkReturn, hr]
    | some a =>
      have hbare : (some (Γ.infer a).node).map Expr.bare = (some a).map Expr.bare := by
        rw [Option.map_some, Option.map_some, bare_node_infer a]
      simp only [checkReturn, hr]
      exact Visit.view_node_andThen hbare fun _ => hbare

theorem bare_node_checkCondition (condition : Expr) :
    (Γ.checkCondition condition).node.bare = condition.bare := by
  rw [checkCondition]
  exact Visit.view_node_andThen (bare_node_infer condition) fun _ => bare_node_infer condition

theorem bare_node_checkAssign (x : Symbol) (value : Expr) :
    (Γ.checkAssign x value).node.bare = value.bare := by
  rw [checkAssign]
  exact Visit.view_node_andThen (bare_node_infer value) fun _ => bare_node_infer value

theorem bareAll_node_checkCall (name : String) (args : List Expr) :
    Expr.bareAll (Γ.checkCall name args).node = Expr.bareAll args := by
  rw [checkCall]
  exact Visit.view_node_guarded rfl fun sig => bareAll_node_inferArgs args

theorem checkDefine_bare_agrees (x : Symbol) (value : Option Expr) :
    (Γ.checkDefine x (value.map Expr.bare)).Agrees (Γ.checkDefine x value).toVisit := by
  cases value with
  | none => exact .refl _
  | some a =>
    rw [Option.map_some, toVisit_checkDefine_some, toVisit_checkDefine_some]
    refine (infer_bare_agrees a).andThen fun found ha => .guarded fun _ _ => ?_
    rw [(infer_bare_agrees a).node found ha]
    exact .refl _

theorem checkReturn_bare_agrees (value : Option Expr) :
    (Γ.checkReturn (value.map Expr.bare)).Agrees (Γ.checkReturn value) := by
  cases value with
  | none => exact .refl _
  | some a =>
    cases hr : Γ.returns with
    | void =>
      simp only [Option.map_some, checkReturn, hr]
      exact ⟨rfl, rfl, fun _ hc => absurd hc (by simp)⟩
    | value expected =>
      simp only [Option.map_some, checkReturn, hr]
      refine (infer_bare_agrees a).andThen fun found ha => ?_
      rw [(infer_bare_agrees a).node found ha]
      exact .refl _

theorem checkCondition_bare_agrees (condition : Expr) :
    (Γ.checkCondition condition.bare).Agrees (Γ.checkCondition condition) := by
  rw [checkCondition, checkCondition]
  refine (infer_bare_agrees condition).andThen fun t hc => ?_
  rw [(infer_bare_agrees condition).node t hc]
  exact .refl _

theorem checkAssign_bare_agrees (x : Symbol) (value : Expr) :
    (Γ.checkAssign x value.bare).Agrees (Γ.checkAssign x value) := by
  rw [checkAssign, checkAssign]
  refine (infer_bare_agrees value).andThen fun found ha => ?_
  rw [(infer_bare_agrees value).node found ha]
  exact .refl _

/-! ## Statements and blocks -/

/-- A block visits its first statement, and then the rest in the context behind it. -/
theorem toVisit_checkBlock_cons (s : Stmt) (ss : List Stmt) :
    (Γ.checkBlock (s :: ss)).toVisit =
      (Γ.checkStmt s).toVisit.andThen (· :: ss) fun _ =>
        ⟨((Γ.addAll s.defines?.toList).checkBlock ss).result,
          (Γ.checkStmt s).node :: ((Γ.addAll s.defines?.toList).checkBlock ss).node,
          ((Γ.addAll s.defines?.toList).checkBlock ss).log⟩ := by
  rw [checkBlock]
  cases hs : (Γ.checkStmt s).result with
  | error e => rw [Visit.andThen_error hs]
  | ok _ => simp only [Visit.andThen_ok hs, context_checkStmt_of_ok hs]

mutual

theorem bare_node_checkStmt : (s : Stmt) → ∀ {Γ : Context}, (Γ.checkStmt s).node.bare = s.bare
  | .define x value, Γ => by
    rw [checkStmt, Stmt.bare, ← bare_node_checkDefine (Γ := Γ) x value]
    rfl
  | .assign x value, Γ => by
    rw [checkStmt, Stmt.bare, ← bare_node_checkAssign (Γ := Γ) x value]
    rfl
  | .ret value, Γ => by
    rw [checkStmt, Stmt.bare, ← bare_node_checkReturn (Γ := Γ) value]
    rfl
  | .branch condition thenBlock elseBlock, Γ => by
    rw [checkStmt]
    refine Visit.view_node_andThen ?_ fun _ => Visit.view_node_andThen ?_ fun _ => ?_
    · rw [Stmt.bare, Stmt.bare, bare_node_checkCondition]
    · rw [Stmt.bare, Stmt.bare, bare_node_checkCondition, bare_node_checkBlock thenBlock]
    · rw [Stmt.bare, Stmt.bare, bare_node_checkCondition, bare_node_checkBlock thenBlock,
        bare_node_checkBlock elseBlock]
  | .loop condition body, Γ => by
    rw [checkStmt]
    refine Visit.view_node_andThen ?_ fun _ => ?_
    · rw [Stmt.bare, Stmt.bare, bare_node_checkCondition]
    · rw [Stmt.bare, Stmt.bare, bare_node_checkCondition, bare_node_checkBlock body]
  | .call name args, Γ => by
    rw [checkStmt, Stmt.bare, ← bareAll_node_checkCall (Γ := Γ) name args]
    rfl

/-- **Checking changes nothing but slots.** -/
theorem bare_node_checkBlock : (ss : List Stmt) → ∀ {Γ : Context},
    Block.bare (Γ.checkBlock ss).node = Block.bare ss
  | [], _ => by rw [checkBlock]
  | s :: ss, Γ => by
    rw [toVisit_checkBlock_cons]
    refine Visit.view_node_andThen ?_ fun _ => ?_
    · rw [Block.bare, Block.bare, bare_node_checkStmt s]
    · rw [Block.bare, Block.bare, bare_node_checkStmt s, bare_node_checkBlock ss]

end

mutual

theorem checkStmt_bare_agrees : (s : Stmt) → ∀ {Γ : Context},
    (Γ.checkStmt s.bare).Agrees (Γ.checkStmt s).toVisit
  | .define x value, Γ => by
    rw [Stmt.bare, checkStmt, checkStmt]
    exact ((checkDefine_bare_agrees x value).mapNode (Stmt.define x)).entering _
  | .assign x value, Γ => by
    rw [Stmt.bare, checkStmt, checkStmt]
    exact ((checkAssign_bare_agrees x value).mapNode (Stmt.assign x)).entering _
  | .ret value, Γ => by
    rw [Stmt.bare, checkStmt, checkStmt]
    exact ((checkReturn_bare_agrees value).mapNode Stmt.ret).entering _
  | .branch condition thenBlock elseBlock, Γ => by
    rw [Stmt.bare, checkStmt, checkStmt]
    have hc := checkCondition_bare_agrees (Γ := Γ) condition
    have ht := checkBlock_bare_agrees thenBlock (Γ := Γ)
    refine Visit.Agrees.entering (hc.andThen fun _ hcr => ht.andThen fun _ htr => ?_) _
    rw [hc.node _ hcr, ht.node _ htr]
    exact (checkBlock_bare_agrees elseBlock).mapNode _
  | .loop condition body, Γ => by
    rw [Stmt.bare, checkStmt, checkStmt]
    have hc := checkCondition_bare_agrees (Γ := Γ) condition
    refine Visit.Agrees.entering (hc.andThen fun _ hcr => ?_) _
    rw [hc.node _ hcr]
    exact (checkBlock_bare_agrees body).mapNode _
  | .call name args, Γ => by
    rw [Stmt.bare, checkStmt, checkStmt]
    exact ((checkCall_bare_agrees name args).map (fun _ => ()) (Stmt.call name)).entering _

theorem checkBlock_bare_agrees : (ss : List Stmt) → ∀ {Γ : Context},
    (Γ.checkBlock (Block.bare ss)).Agrees (Γ.checkBlock ss).toVisit
  | [], _ => by
    rw [Block.bare]
    exact .refl _
  | s :: ss, Γ => by
    rw [Block.bare, toVisit_checkBlock_cons, toVisit_checkBlock_cons, Stmt.defines?_bare]
    refine (checkStmt_bare_agrees s).andThen fun _ hs => ?_
    rw [(checkStmt_bare_agrees s).node _ hs]
    exact (checkBlock_bare_agrees ss).mapNode _

end

/-! ## Functions -/

theorem bare_node_checkFunction (params : List Symbol) (body : Block) :
    Block.bare (Γ.checkFunction params body).node = Block.bare body := by
  rw [checkFunction]
  refine Visit.view_node_guarded rfl fun Δ => ?_
  exact Visit.view_node_andThen (bare_node_checkBlock body) fun _ => bare_node_checkBlock body

/-- **A function is checked with the same answer, and the same recorded types if it is accepted,
whatever the slots held.** -/
theorem checkFunction_bare_agrees (params : List Symbol) (body : Block) :
    (Γ.checkFunction params (Block.bare body)).Agrees (Γ.checkFunction params body) := by
  rw [checkFunction, checkFunction]
  refine Visit.Agrees.entering (.guarded fun Δ hΔ => ?_) _
  have hbody := checkBlock_bare_agrees body (Γ := Δ)
  refine hbody.andThen fun _ hr => ?_
  -- the last event counts what is declared behind the body
  rw [hbody.node _ hr, context_checkBlock_of_ok hr,
    context_checkBlock_of_ok (hbody.result.symm.trans hr), Block.defined_bare]
  exact .refl _

end Context

end BlockLang
