import BlockLang.Proofs.Typing.Verdict

/-!
# Checking decides the typing of statements, blocks and functions

`checkFunction_ok_iff_blockTyped`: a function is accepted exactly when its parameters are pairwise
distinct and new, and its body is well typed with them declared.

A statement is well typed when its head is accepted and the blocks inside it are well typed
(`stmtTyped_iff`), which is how the checker goes about it too. So one induction over the tree is
enough, and both directions come out of it together (`checkBlock_eq_ok_iff`).
-/

namespace BlockLang.Context

variable {Γ Δ : Context} {s : Stmt} {ss : List Stmt}

/-! ## Statements from their parts -/

/-- An accepted head and well-typed blocks make a well-typed statement. -/
theorem stmtTyped_of_head (h : Γ.headVerdict s = .ok ()) (hb : ∀ b ∈ s.blocks, Γ.BlockTyped b) :
    Γ.StmtTyped s (Γ.addAll s.defines?.toList) := by
  cases s with
  | define x value =>
    obtain ⟨hx, ha⟩ := checkDefine_eq_ok_iff.mp h
    cases value with
    | none => exact .declare hx
    | some a => exact .define hx (infer_eq_ok_iff.mp (ha a rfl))
  | assign x value =>
    obtain ⟨hx, ha⟩ := checkAssign_eq_ok_iff.mp h
    exact .assign hx (infer_eq_ok_iff.mp ha)
  | ret value =>
    rcases checkReturn_eq_ok_iff.mp h with ⟨hr, rfl⟩ | ⟨t, a, hr, rfl, ha⟩
    · exact .leave hr
    · exact .giveBack hr (infer_eq_ok_iff.mp ha)
  | branch condition thenBlock elseBlock =>
    have hc := infer_eq_ok_iff.mp (checkCondition_eq_ok_iff.mp h)
    exact .branch hc (hb thenBlock (by simp [Stmt.blocks])) (hb elseBlock (by simp [Stmt.blocks]))
  | loop condition body =>
    have hc := infer_eq_ok_iff.mp (checkCondition_eq_ok_iff.mp h)
    exact .loop hc (hb body (by simp [Stmt.blocks]))
  | call name args =>
    obtain ⟨ret, hr⟩ := headVerdict_call_eq_ok_iff.mp h
    obtain ⟨params, hf, htypes⟩ := checkCall_eq_ok_iff.mp hr
    exact .call hf htypes

/-- A well-typed statement has an accepted head, and hands on what it introduces. -/
theorem head_of_stmtTyped (h : Γ.StmtTyped s Δ) :
    Γ.headVerdict s = .ok () ∧ Δ = Γ.addAll s.defines?.toList := by
  cases h with
  | declare hx => exact ⟨checkDefine_eq_ok_iff.mpr ⟨hx, by simp⟩, rfl⟩
  | define hx ha =>
    refine ⟨checkDefine_eq_ok_iff.mpr ⟨hx, ?_⟩, rfl⟩
    intro a he
    cases he
    exact infer_eq_ok_iff.mpr ha
  | assign hx ha => exact ⟨checkAssign_eq_ok_iff.mpr ⟨hx, infer_eq_ok_iff.mpr ha⟩, rfl⟩
  | leave hr => exact ⟨checkReturn_eq_ok_iff.mpr (Or.inl ⟨hr, rfl⟩), rfl⟩
  | giveBack hr ha =>
    exact ⟨checkReturn_eq_ok_iff.mpr (Or.inr ⟨_, _, hr, rfl, infer_eq_ok_iff.mpr ha⟩), rfl⟩
  | branch hc _ _ => exact ⟨checkCondition_eq_ok_iff.mpr (infer_eq_ok_iff.mpr hc), rfl⟩
  | loop hc _ => exact ⟨checkCondition_eq_ok_iff.mpr (infer_eq_ok_iff.mpr hc), rfl⟩
  | call hf htypes =>
    exact ⟨headVerdict_call_eq_ok_iff.mpr ⟨_, checkCall_eq_ok_iff.mpr ⟨_, hf, htypes⟩⟩, rfl⟩

/-- The blocks inside a well-typed statement are typed in the context in front of it. -/
theorem blockTyped_of_stmtTyped (h : Γ.StmtTyped s Δ) : ∀ b ∈ s.blocks, Γ.BlockTyped b := by
  intro b hb
  cases h with
  | branch _ ht he =>
    rcases List.mem_cons.mp hb with rfl | hb
    · exact ht
    · rw [List.mem_singleton.mp hb]
      exact he
  | loop _ hbody =>
    rw [List.mem_singleton.mp hb]
    exact hbody
  | _ => cases hb

theorem stmtTyped_iff :
    Γ.StmtTyped s Δ ↔
      (Γ.headVerdict s = .ok () ∧ ∀ b ∈ s.blocks, Γ.BlockTyped b) ∧
        Δ = Γ.addAll s.defines?.toList := by
  constructor
  · intro h
    obtain ⟨hh, hΔ⟩ := head_of_stmtTyped h
    exact ⟨⟨hh, blockTyped_of_stmtTyped h⟩, hΔ⟩
  · rintro ⟨⟨hh, hb⟩, rfl⟩
    exact stmtTyped_of_head hh hb

theorem blockTyped_cons_iff :
    Γ.BlockTyped (s :: ss) ↔
      (Γ.headVerdict s = .ok () ∧ ∀ b ∈ s.blocks, Γ.BlockTyped b) ∧
        (Γ.addAll s.defines?.toList).BlockTyped ss := by
  constructor
  · intro h
    cases h with
    | cons hs hss =>
      obtain ⟨hparts, rfl⟩ := stmtTyped_iff.mp hs
      exact ⟨hparts, hss⟩
  · rintro ⟨hparts, hss⟩
    exact .cons (stmtTyped_iff.mpr ⟨hparts, rfl⟩) hss

/-! ## The induction -/

/-- **A block is accepted exactly when it is well typed.** -/
theorem checkBlock_eq_ok_iff {ss : Block} :
    (Γ.checkBlock ss).result = .ok () ↔ Γ.BlockTyped ss := by
  induction ss using Block.induction_blocks generalizing Γ with
  | step ss inner =>
    induction ss generalizing Γ with
    | nil => exact ⟨fun _ => .nil, fun _ => checkBlock_nil⟩
    | cons s ss ih =>
      have hrest : ∀ {Δ : Context}, (Δ.checkBlock ss).result = .ok () ↔ Δ.BlockTyped ss :=
        ih fun r hr => inner r (List.mem_cons_of_mem s hr)
      have hblocks : (∀ b ∈ s.blocks, (Γ.checkBlock b).result = .ok ()) ↔
          ∀ b ∈ s.blocks, Γ.BlockTyped b :=
        forall_congr' fun b => forall_congr' fun hb => inner s List.mem_cons_self b hb
      -- the context behind `s` is the same on both sides
      rw [checkBlock_cons_eq_ok_iff, checkStmt_eq_ok_iff, blockTyped_cons_iff, hrest, hblocks]

/--
**A function is accepted exactly when its parameters are pairwise distinct and not declared, and its
body is well typed with them declared.**
-/
theorem checkFunction_ok_iff_blockTyped (Γ : Context) (params : List Symbol) (body : Block) :
    (Γ.checkFunction params body).result = .ok () ↔
      ((params.map Symbol.id).Nodup ∧ ∀ x ∈ params, ¬ Γ.Declares x) ∧
        (Γ.addAll params).BlockTyped body := by
  rw [checkFunction_eq_ok_iff, checkBlock_eq_ok_iff]
  exact Iff.rfl

end BlockLang.Context
