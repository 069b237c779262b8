import BlockLang.Proofs.Slots.Bare

/-!
# What a good verdict leaves

After a good verdict every part of a tree has been visited. So what is left of a node is the node
with its type recorded, over what is left of its children (`node_infer_of_ok`), and what is left of
a statement is the statement over what is left of its expressions and blocks
(`node_checkStmt_of_ok`).

Every statement that is left of a block, at any depth, therefore comes from a successful visit of a
statement of its own, in a context with more variables and the same signatures and result
(`exists_of_mem_stmts_checkBlock`).
-/

namespace BlockLang

theorem Visit.node_andThen_of_ok {ρ σ α β : Type} {v : Visit ρ α} {a : ρ} (h : v.result = .ok a)
    (stopped : α → β) (next : ρ → Visit σ β) :
    (v.andThen stopped next).node = (next a).node := by
  rw [andThen_ok h]

namespace Context

variable {Γ : Context}

/-! ## Expressions -/

/-- Each argument is left as inference leaves it. -/
theorem node_inferArgs_of_haveTypes {name : String} {ret : ReturnTy} {k : Nat} {es : List Expr}
    {ts : List Ty} (h : Γ.HaveTypes es ts) :
    (Γ.inferArgs name ret k es ts).node = es.map fun a => (Γ.infer a).node := by
  induction es generalizing ts k with
  | nil => rw [inferArgs, List.map_nil]
  | cons a as ih =>
    cases h with
    | cons ha hrest =>
      rw [inferArgs, Visit.node_andThen_of_ok (infer_of_hasType a ha), if_pos rfl, List.map_cons,
        ← ih hrest]

theorem node_checkCall_of_ok {name : String} {args : List Expr} {ret : ReturnTy}
    (h : (Γ.checkCall name args).result = .ok ret) :
    (Γ.checkCall name args).node = args.map fun a => (Γ.infer a).node := by
  obtain ⟨params, hf, htypes⟩ := checkCall_eq_ok_iff.mp h
  have hcallee : Γ.callee name args.length = .ok ⟨params, ret⟩ :=
    callee_eq_ok_iff.mpr ⟨hf, htypes.length_eq.symm⟩
  rw [checkCall, hcallee, Visit.guarded_ok]
  exact node_inferArgs_of_haveTypes htypes

/-- **What is left of a node is the node with its type, over what is left of its children.** -/
theorem node_infer_of_ok {e : Expr} {t : Ty} (h : (Γ.infer e).result = .ok t) :
    (Γ.infer e).node = (e.mapChildren fun a => (Γ.infer a).node).record t := by
  cases e with
  | const s c =>
    rw [infer_const] at h
    cases h
    rw [infer, Visit.settle_ok]
    rfl
  | var s x =>
    rw [infer_var] at h
    rw [infer, h, Visit.settle_ok]
    rfl
  | binary s op l r =>
    obtain ⟨lt, hl, rt, hr, ha⟩ := infer_binary_eq_ok_iff.mp h
    rw [infer, Visit.node_andThen_of_ok hl, Visit.node_andThen_of_ok hr, ha, Visit.settle_ok]
    rfl
  | not s a =>
    obtain ⟨u, hu, hn⟩ := infer_not_eq_ok_iff.mp h
    rw [infer, Visit.node_andThen_of_ok hu, hn, Visit.settle_ok]
    rfl
  | get s a f =>
    obtain ⟨u, hu, i, hi⟩ := infer_get_eq_ok_iff.mp h
    rw [infer, Visit.node_andThen_of_ok hu, hi]
    rfl
  | set s a f v =>
    obtain ⟨ha, i, u, hi, hv⟩ := infer_set_eq_ok_iff.mp h
    rw [infer, Visit.node_andThen_of_ok ha, hi, Visit.guarded_ok, Visit.node_andThen_of_ok hv,
      Ty.expect_eq_ok_iff.mpr rfl]
    rfl
  | deref s p =>
    have hp := infer_deref_eq_ok_iff.mp h
    rw [infer, Visit.node_andThen_of_ok hp, Ty.target_eq_ok_iff.mpr rfl, Visit.settle_ok]
    rfl
  | call s name args =>
    have hc := infer_call_eq_ok_iff.mp h
    rw [infer_call, Visit.node_andThen_of_ok hc, node_checkCall_of_ok hc,
      ReturnTy.asValue_eq_ok_iff.mpr rfl, Visit.settle_ok]
    rfl

theorem slot_node_infer_of_ok {e : Expr} {t : Ty} (h : (Γ.infer e).result = .ok t) :
    (Γ.infer e).node.slot = some t := by
  rw [node_infer_of_ok h, Expr.slot_record]

/-! ## Statements and blocks -/

variable {s : Stmt}

/-- **What is left of a statement is the statement over what is left of its parts.** -/
theorem node_checkStmt_of_ok (h : (Γ.checkStmt s).result = .ok ()) :
    (Γ.checkStmt s).node =
      s.mapParts (fun a => (Γ.infer a).node) fun b => (Γ.checkBlock b).node := by
  obtain ⟨hhead, hblocks⟩ := checkStmt_eq_ok_iff.mp h
  cases s with
  | define x value =>
    have hnode : (Γ.checkDefine x value).node = value.map fun a => (Γ.infer a).node := by
      obtain ⟨hx, ha⟩ := checkDefine_eq_ok_iff.mp hhead
      cases value with
      | none => rw [checkDefine, declare_of_not_declares hx]; rfl
      | some a =>
        rw [toVisit_checkDefine_some, Visit.node_andThen_of_ok (ha a rfl),
          declare_of_not_declares hx]
        rfl
    rw [checkStmt, Stmt.mapParts, ← hnode]
    rfl
  | assign x value =>
    have hnode : (Γ.checkAssign x value).node = (Γ.infer value).node := by
      rw [checkAssign, Visit.node_andThen_of_ok (checkAssign_eq_ok_iff.mp hhead).2]
    rw [checkStmt, Stmt.mapParts, ← hnode]
    rfl
  | ret value =>
    have hnode : (Γ.checkReturn value).node = value.map fun a => (Γ.infer a).node := by
      rcases checkReturn_eq_ok_iff.mp hhead with ⟨hr, rfl⟩ | ⟨t, a, hr, rfl, ha⟩
      · simp only [checkReturn, hr, Option.map_none]
      · simp only [checkReturn, hr, Option.map_some]
        rw [Visit.node_andThen_of_ok ha]
    rw [checkStmt, Stmt.mapParts, ← hnode]
    rfl
  | branch condition thenBlock elseBlock =>
    have hc : (Γ.checkCondition condition).node = (Γ.infer condition).node := by
      rw [checkCondition, Visit.node_andThen_of_ok (checkCondition_eq_ok_iff.mp hhead)]
    have ht := hblocks thenBlock (by simp [Stmt.blocks])
    rw [checkStmt, Stmt.mapParts, ← hc]
    show (Visit.andThen _ _ _).node = _
    rw [Visit.node_andThen_of_ok hhead, Visit.node_andThen_of_ok ht]
  | loop condition body =>
    have hc : (Γ.checkCondition condition).node = (Γ.infer condition).node := by
      rw [checkCondition, Visit.node_andThen_of_ok (checkCondition_eq_ok_iff.mp hhead)]
    rw [checkStmt, Stmt.mapParts, ← hc]
    show (Visit.andThen _ _ _).node = _
    rw [Visit.node_andThen_of_ok hhead]
  | call name args =>
    obtain ⟨ret, hr⟩ := headVerdict_call_eq_ok_iff.mp hhead
    rw [checkStmt, Stmt.mapParts, ← node_checkCall_of_ok hr]
    rfl

theorem node_checkBlock_cons_of_ok {ss : List Stmt} (h : (Γ.checkStmt s).result = .ok ()) :
    (Γ.checkBlock (s :: ss)).node =
      (Γ.checkStmt s).node :: ((Γ.addAll s.defines?.toList).checkBlock ss).node := by
  rw [toVisit_checkBlock_cons, Visit.node_andThen_of_ok h]

/-- **A statement that is left of an accepted block was accepted itself**, in a context with more
variables. -/
theorem exists_of_mem_stmts_checkBlock {ss : Block} {n : Stmt}
    (h : (Γ.checkBlock ss).result = .ok ()) (hn : n ∈ Block.stmts (Γ.checkBlock ss).node) :
    ∃ xs r, ((Γ.addAll xs).checkStmt r).result = .ok () ∧
      n = ((Γ.addAll xs).checkStmt r).node := by
  induction ss using Block.induction_blocks generalizing Γ with
  | step ss inner =>
    induction ss generalizing Γ with
    | nil =>
      rw [checkBlock, Block.stmts] at hn
      cases hn
    | cons s ss ih =>
      obtain ⟨hs, hss⟩ := checkBlock_cons_eq_ok_iff.mp h
      rw [node_checkBlock_cons_of_ok hs, Block.stmts] at hn
      rcases List.mem_append.mp hn with hn | hn
      · rcases Stmt.mem_stmts.mp hn with rfl | ⟨b', hb', hn⟩
        · exact ⟨[], s, hs, rfl⟩
        · -- a block that is left of `s` is what checking leaves of a block inside `s`
          rw [node_checkStmt_of_ok hs, Stmt.blocks_mapParts] at hb'
          obtain ⟨b, hb, rfl⟩ := List.mem_map.mp hb'
          exact inner s List.mem_cons_self b hb ((checkStmt_eq_ok_iff.mp hs).2 b hb) hn
      · obtain ⟨xs, r, hr, hnode⟩ := ih (fun r hr => inner r (List.mem_cons_of_mem s hr)) hss hn
        rw [← addAll_append] at hr hnode
        exact ⟨_, r, hr, hnode⟩

end Context

end BlockLang
