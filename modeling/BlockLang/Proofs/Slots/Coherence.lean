import BlockLang.Proofs.Slots.Recorded

/-!
# Recorded types fit together

After a function was accepted, every expression node of its body holds a type, and the types of
neighbours fit together: the slot of a node and the slots of its children are related as the typing
rule of the node asks (`Expr.Coherent`), and the slots of the expressions of a statement are what
the statement asks for (`Stmt.Coherent`). Whoever walks over the tree later may rely on the slots
alone.

`checkFunction_records_coherent_types` puts this together with the independence of what the slots
held before (`Proofs/Slots/Bare.lean`).
-/

namespace BlockLang

/-! ## Coherence -/

/-- The slot of a node and the slots of its children are related as the rule of the node asks. -/
def Expr.Coherent (Γ : Context) : Expr → Prop
  | .const s c => s = some c.ty
  | .var s x => s = some x.ty
  | .binary s op l r =>
    match op.family with
    | .arithmetic =>
      ∃ w, s = some (.int w) ∧ l.slot = some (.int w) ∧ r.slot = some (.int w)
    | .comparison => s = some .bool ∧ ∃ w, l.slot = some (.int w) ∧ r.slot = some (.int w)
    | .equality =>
      s = some .bool ∧ l.slot = r.slot ∧ ((∃ w, l.slot = some (.int w)) ∨ l.slot = some .bool)
    | .logical => s = some .bool ∧ l.slot = some .bool ∧ r.slot = some .bool
  | .not s e => s = some .bool ∧ e.slot = some .bool
  | .get s a f => ∃ t i u, a.slot = some t ∧ t.elementAt f = .ok (i, u) ∧ s = some u
  | .set s a f v =>
    ∃ t i u, a.slot = some t ∧ t.elementAt f = .ok (i, u) ∧ v.slot = some u ∧ s = some t
  | .deref s p => ∃ t, p.slot = some (.pointer t) ∧ s = some t
  | .call s name args =>
    ∃ params t, Γ.signatures.find? name = some ⟨params, .value t⟩ ∧
      args.map Expr.slot = params.map some ∧ s = some t

/-- The slots of the expressions of a statement hold the types that the statement asks for. -/
def Stmt.Coherent (Γ : Context) : Stmt → Prop
  | .define x value => ∀ e, value = some e → e.slot = some x.ty
  | .assign x value => value.slot = some x.ty
  | .ret value => value.map Expr.slot = Γ.returns.type?.map some
  | .branch condition _ _ => condition.slot = some .bool
  | .loop condition _ => condition.slot = some .bool
  | .call name args =>
    ∃ sig, Γ.signatures.find? name = some sig ∧ args.map Expr.slot = sig.params.map some

variable {Γ : Context}

theorem Expr.exists_slot_of_coherent {n : Expr} (h : n.Coherent Γ) : ∃ t, n.slot = some t := by
  cases n with
  | const s c => exact ⟨_, h⟩
  | var s x => exact ⟨_, h⟩
  | binary s op l r =>
    rw [Coherent] at h
    split at h
    · obtain ⟨w, hs, -, -⟩ := h
      exact ⟨_, hs⟩
    · exact ⟨_, h.1⟩
    · exact ⟨_, h.1⟩
    · exact ⟨_, h.1⟩
  | not s e => exact ⟨_, h.1⟩
  | get s a f =>
    obtain ⟨t, i, u, -, -, hs⟩ := h
    exact ⟨u, hs⟩
  | set s a f v =>
    obtain ⟨t, i, u, -, -, -, hs⟩ := h
    exact ⟨t, hs⟩
  | deref s p =>
    obtain ⟨t, -, hs⟩ := h
    exact ⟨t, hs⟩
  | call s name args =>
    obtain ⟨params, t, -, -, hs⟩ := h
    exact ⟨t, hs⟩

/-- Coherence asks for signatures only, so more variables make no difference. -/
theorem Expr.coherent_addAll {n : Expr} {xs : List Symbol} :
    n.Coherent (Γ.addAll xs) ↔ n.Coherent Γ := by
  cases n <;> simp only [Coherent, Context.signatures_addAll]

theorem Stmt.coherent_addAll {s : Stmt} {xs : List Symbol} :
    s.Coherent (Γ.addAll xs) ↔ s.Coherent Γ := by
  cases s <;> simp only [Coherent, Context.signatures_addAll, Context.returns_addAll]

namespace Context

/-! ## Expressions -/

theorem map_slot_of_haveTypes {es : List Expr} {ts : List Ty} (h : Γ.HaveTypes es ts) :
    (es.map fun a => (Γ.infer a).node).map Expr.slot = ts.map some := by
  induction es generalizing ts with
  | nil => cases h; rfl
  | cons e es ih =>
    cases h with
    | cons he hrest =>
      rw [List.map_cons, List.map_cons, List.map_cons, ih hrest,
        slot_node_infer_of_ok (infer_of_hasType e he)]

/-- The root of what inference leaves is coherent. -/
theorem coherent_node_infer {e : Expr} {t : Ty} (h : (Γ.infer e).result = .ok t) :
    (Γ.infer e).node.Coherent Γ := by
  rw [node_infer_of_ok h]
  cases e with
  | const s c =>
    rw [infer_const] at h
    cases h
    rfl
  | var s x =>
    cases infer_eq_ok_iff.mp h
    rfl
  | binary s op l r =>
    obtain ⟨lt, hl, rt, hr, ha⟩ := infer_binary_eq_ok_iff.mp h
    have hls : (Γ.infer l).node.slot = some lt := slot_node_infer_of_ok hl
    have hrs : (Γ.infer r).node.slot = some rt := slot_node_infer_of_ok hr
    have hj := BinaryOp.apply_eq_ok_iff.mp ha
    show Expr.Coherent Γ (.binary (some t) op (Γ.infer l).node (Γ.infer r).node)
    rw [Expr.Coherent, hls, hrs]
    generalize op.family = family at hj
    cases hj with
    | arithmetic w => exact ⟨w, rfl, rfl, rfl⟩
    | comparison w => exact ⟨rfl, w, rfl, rfl⟩
    | equalInts w => exact ⟨rfl, rfl, Or.inl ⟨w, rfl⟩⟩
    | equalBools => exact ⟨rfl, rfl, Or.inr rfl⟩
    | logical => exact ⟨rfl, rfl, rfl⟩
  | not s a =>
    obtain ⟨u, hu, hn⟩ := infer_not_eq_ok_iff.mp h
    obtain ⟨rfl, rfl⟩ := Ty.negate_eq_ok_iff.mp hn
    exact ⟨rfl, slot_node_infer_of_ok hu⟩
  | get s a f =>
    obtain ⟨u, hu, i, hi⟩ := infer_get_eq_ok_iff.mp h
    exact ⟨u, i, t, slot_node_infer_of_ok hu, hi, rfl⟩
  | set s a f v =>
    obtain ⟨ha, i, u, hi, hv⟩ := infer_set_eq_ok_iff.mp h
    exact ⟨t, i, u, slot_node_infer_of_ok ha, hi, slot_node_infer_of_ok hv, rfl⟩
  | deref s p =>
    exact ⟨t, slot_node_infer_of_ok (infer_deref_eq_ok_iff.mp h), rfl⟩
  | call s name args =>
    obtain ⟨params, hf, htypes⟩ := checkCall_eq_ok_iff.mp (infer_call_eq_ok_iff.mp h)
    exact ⟨params, t, hf, map_slot_of_haveTypes htypes, rfl⟩

/-- **Every node of what inference leaves is coherent.** -/
theorem coherent_of_mem_nodes_infer {e n : Expr} {t : Ty} (h : (Γ.infer e).result = .ok t)
    (hn : n ∈ (Γ.infer e).node.nodes) : n.Coherent Γ := by
  induction e using Expr.induction_children generalizing t with
  | step e ih =>
    rw [Expr.nodes_eq] at hn
    rcases List.mem_cons.mp hn with rfl | hn
    · exact coherent_node_infer h
    · -- below the root stands what inference leaves of the children
      rw [node_infer_of_ok h, Expr.children_record, Expr.children_mapChildren] at hn
      obtain ⟨a', ha', hn⟩ := Expr.mem_nodesIn.mp hn
      obtain ⟨a, ha, rfl⟩ := List.mem_map.mp ha'
      obtain ⟨u, hu⟩ := exists_infer_of_child h a ha
      exact ih a ha hu hn

/-! ## Statements and functions -/

/-- What checking leaves of an accepted statement is coherent. -/
theorem coherent_node_checkStmt {s : Stmt} (h : (Γ.checkStmt s).result = .ok ()) :
    (Γ.checkStmt s).node.Coherent Γ := by
  have hhead := (checkStmt_eq_ok_iff.mp h).1
  rw [node_checkStmt_of_ok h]
  cases s with
  | define x value =>
    intro a' ha'
    obtain ⟨a, ha, rfl⟩ := Option.map_eq_some_iff.mp ha'
    exact slot_node_infer_of_ok ((checkDefine_eq_ok_iff.mp hhead).2 a ha)
  | assign x value => exact slot_node_infer_of_ok (checkAssign_eq_ok_iff.mp hhead).2
  | ret value =>
    rw [Stmt.mapParts, Stmt.Coherent]
    rcases checkReturn_eq_ok_iff.mp hhead with ⟨hr, rfl⟩ | ⟨t, a, hr, rfl, ha⟩
    · rw [hr]
      rfl
    · rw [hr, Option.map_some, Option.map_some, slot_node_infer_of_ok ha]
      rfl
  | branch condition thenBlock elseBlock =>
    exact slot_node_infer_of_ok (checkCondition_eq_ok_iff.mp hhead)
  | loop condition body => exact slot_node_infer_of_ok (checkCondition_eq_ok_iff.mp hhead)
  | call name args =>
    obtain ⟨ret, hr⟩ := headVerdict_call_eq_ok_iff.mp hhead
    obtain ⟨params, hf, htypes⟩ := checkCall_eq_ok_iff.mp hr
    exact ⟨⟨params, ret⟩, hf, map_slot_of_haveTypes htypes⟩

/-- The expression nodes of what checking leaves of an accepted statement are coherent. -/
theorem coherent_of_mem_exprs_checkStmt {s : Stmt} (h : (Γ.checkStmt s).result = .ok ())
    {e n : Expr} (he : e ∈ (Γ.checkStmt s).node.exprs) (hn : n ∈ e.nodes) : n.Coherent Γ := by
  rw [node_checkStmt_of_ok h, Stmt.exprs_mapParts] at he
  obtain ⟨a, ha, rfl⟩ := List.mem_map.mp he
  obtain ⟨t, ht⟩ := exists_infer_of_mem_exprs (checkStmt_eq_ok_iff.mp h).1 a ha
  exact coherent_of_mem_nodes_infer ht hn

theorem node_checkFunction_of_fresh {params : List Symbol} {body : Block} (h : Γ.Fresh params) :
    (Γ.checkFunction params body).node = ((Γ.addAll params).checkBlock body).node := by
  rw [checkFunction, declareParams_eq_ok_iff.mpr ⟨h, rfl⟩, Visit.node_entering, Visit.guarded_ok]
  exact Visit.view_node_andThen (f := id) rfl fun _ => rfl

/--
**Recorded types are fresh, complete and coherent.**

The verdict on a function does not depend on what the slots of the body held. If it is good, the
types that are recorded afterwards do not depend on it either, nothing but slots has changed, and
every expression node of the body holds a type that fits the types of its children and the
statement that it stands in.
-/
theorem checkFunction_records_coherent_types (Γ : Context) (params : List Symbol) (body : Block) :
    (Γ.checkFunction params body).result = (Γ.checkFunction params (Block.bare body)).result ∧
      ((Γ.checkFunction params body).result = .ok () →
        (Γ.checkFunction params body).node = (Γ.checkFunction params (Block.bare body)).node ∧
        Block.bare (Γ.checkFunction params body).node = Block.bare body ∧
        (∀ n ∈ Block.nodes (Γ.checkFunction params body).node,
          (∃ t, n.slot = some t) ∧ n.Coherent Γ) ∧
        ∀ s ∈ Block.stmts (Γ.checkFunction params body).node, s.Coherent Γ) := by
  have hagrees := checkFunction_bare_agrees (Γ := Γ) params body
  refine ⟨hagrees.result.symm, fun h => ?_⟩
  obtain ⟨hfresh, hbody⟩ := checkFunction_eq_ok_iff.mp h
  refine ⟨(hagrees.node () (hagrees.result.trans h)).symm, bare_node_checkFunction params body, ?_⟩
  rw [node_checkFunction_of_fresh hfresh]
  constructor
  · intro n hn
    obtain ⟨s', hs', e, he, hn⟩ := Block.mem_nodes.mp hn
    obtain ⟨xs, s, hs, rfl⟩ := exists_of_mem_stmts_checkBlock hbody hs'
    have hcoherent := coherent_of_mem_exprs_checkStmt hs he hn
    rw [← addAll_append, Expr.coherent_addAll] at hcoherent
    exact ⟨Expr.exists_slot_of_coherent hcoherent, hcoherent⟩
  · intro s' hs'
    obtain ⟨xs, s, hs, rfl⟩ := exists_of_mem_stmts_checkBlock hbody hs'
    have hcoherent := coherent_node_checkStmt hs
    rw [← addAll_append, Stmt.coherent_addAll] at hcoherent
    rw [← addAll_append]
    exact hcoherent

/-- A body with types in its slots that come from elsewhere. -/
def staleBody : Block :=
  [.define ⟨⟨0⟩, "x", .int .w32⟩ (some (.const (some .bool) (.int .w32 7))),
    .branch (.binary none .lt (.var (some .bool) ⟨⟨0⟩, "x", .int .w32⟩) (.const none (.int .w32 9)))
      [.ret (some (.var (some (.pointer .bool)) ⟨⟨0⟩, "x", .int .w32⟩))] []]

/-- The body is accepted, and its stale types are gone. -/
theorem staleBody_records_coherent_types :
    (Context.checkFunction { returns := .value (.int .w32) } [] staleBody).result = .ok () ∧
      ∀ n ∈ Block.nodes (Context.checkFunction { returns := .value (.int .w32) } [] staleBody).node,
        (∃ t, n.slot = some t) ∧ n.Coherent { returns := .value (.int .w32) } :=
  ⟨rfl, ((checkFunction_records_coherent_types _ [] staleBody).2 rfl).2.2.1⟩

end Context

end BlockLang
