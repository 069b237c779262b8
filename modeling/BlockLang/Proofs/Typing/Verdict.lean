import BlockLang.Proofs.Tree.Parts
import BlockLang.Proofs.Typing.Inference
import BlockLang.Typing.Check

/-!
# Verdicts on statements, blocks and functions

How the verdict on a whole comes from the verdicts on its parts, for good verdicts and for bad ones:

* a statement is its head — all of it but the blocks inside — and then those blocks
  (`checkStmt_eq_ok_iff`, `checkStmt_error_cases`);
* a block is its first statement, and the rest behind it (`checkBlock_cons_eq_ok_iff`,
  `checkBlock_cons_eq_error_iff`);
* a function is its parameters, and the body with them declared (`checkFunction_eq_ok_iff`,
  `checkFunction_eq_error_iff`).

`context_checkStmt_of_ok` says what is known behind a statement. The statements that follow from
these never unfold the checker.
-/

namespace BlockLang.Context

variable {Γ : Context} {e : TypeError}

/-- The verdict on a statement apart from the blocks inside it. -/
def headVerdict (Γ : Context) : Stmt → Except TypeError Unit
  | .define x value => (Γ.checkDefine x value).result
  | .assign x value => (Γ.checkAssign x value).result
  | .ret value => (Γ.checkReturn value).result
  | .branch condition _ _ => (Γ.checkCondition condition).result
  | .loop condition _ => (Γ.checkCondition condition).result
  | .call name args => (Γ.checkCall name args).result.map fun _ => ()

/-! ## Heads of statements -/

theorem checkDefine_eq_ok_iff {x : Symbol} {value : Option Expr} :
    (Γ.checkDefine x value).result = .ok () ↔
      ¬ Γ.Declares x ∧ ∀ a, value = some a → (Γ.infer a).result = .ok x.ty := by
  by_cases hx : Γ.Declares x
  · refine ⟨fun h => ?_, fun h => absurd hx h.1⟩
    cases value with
    | none => rw [checkDefine, declare_of_declares hx] at h; cases h
    | some a =>
      cases hr : (Γ.infer a).result with
      | error _ => simp [checkDefine, hr] at h
      | ok _ => simp [checkDefine, hr, declare_of_declares hx] at h
  · cases value with
    | none => simp [checkDefine, declare_of_not_declares hx, hx]
    | some a =>
      cases hr : (Γ.infer a).result with
      | error _ => simp [checkDefine, hr, hx]
      | ok found => simp [checkDefine, hr, declare_of_not_declares hx, hx, Ty.expect_eq_ok_iff]

theorem context_checkDefine_of_ok {x : Symbol} {value : Option Expr}
    (h : (Γ.checkDefine x value).result = .ok ()) :
    (Γ.checkDefine x value).context = Γ.add x := by
  obtain ⟨hx, ha⟩ := checkDefine_eq_ok_iff.mp h
  cases value with
  | none => rw [checkDefine, declare_of_not_declares hx]
  | some a => simp only [checkDefine, ha a rfl, declare_of_not_declares hx]

/-- The three ways in which a definition fails: in its value, because the variable is declared, or
because the value has another type. In the last two the value has been visited. -/
theorem checkDefine_error_cases {x : Symbol} {value : Option Expr}
    (h : (Γ.checkDefine x value).result = .error e) :
    (∃ a, value = some a ∧ (Γ.infer a).result = .error e) ∨
      (Γ.Declares x ∧ (∀ a, value = some a → ∃ found, (Γ.infer a).result = .ok found) ∧
        e = .redeclared x.name) ∨
      ∃ a found, value = some a ∧ (Γ.infer a).result = .ok found ∧ found ≠ x.ty ∧
        e = .mismatch x.ty found := by
  cases value with
  | none =>
    by_cases hx : Γ.Declares x
    · rw [checkDefine, declare_of_declares hx] at h
      exact Or.inr (Or.inl ⟨hx, nofun, (Except.error.inj h).symm⟩)
    · rw [checkDefine, declare_of_not_declares hx] at h
      cases h
  | some a =>
    cases hr : (Γ.infer a).result with
    | error e' =>
      simp only [checkDefine, hr] at h
      exact Or.inl ⟨a, rfl, by rw [hr, Except.error.inj h]⟩
    | ok found =>
      by_cases hx : Γ.Declares x
      · simp only [checkDefine, hr, declare_of_declares hx] at h
        refine Or.inr (Or.inl ⟨hx, ?_, (Except.error.inj h).symm⟩)
        rintro _ ⟨⟩
        exact ⟨found, hr⟩
      · simp only [checkDefine, hr, declare_of_not_declares hx] at h
        obtain ⟨hne, rfl⟩ := Ty.expect_eq_error_iff.mp h
        exact Or.inr (Or.inr ⟨a, found, rfl, hr, hne, rfl⟩)

theorem checkAssign_eq_ok_iff {x : Symbol} {value : Expr} :
    (Γ.checkAssign x value).result = .ok () ↔
      Γ.Declares x ∧ (Γ.infer value).result = .ok x.ty := by
  rw [checkAssign]
  simp only [Visit.andThen_eq_ok_iff]
  by_cases hx : Γ.Declares x
  · simp [typeOf_of_declares hx, Except.bind, Ty.expect_eq_ok_iff, hx]
  · simp [typeOf_of_not_declares hx, Except.bind, hx]

theorem checkAssign_error_cases {x : Symbol} {value : Expr}
    (h : (Γ.checkAssign x value).result = .error e) :
    (Γ.infer value).result = .error e ∨
      (¬ Γ.Declares x ∧ (∃ found, (Γ.infer value).result = .ok found) ∧
        e = .undeclaredVariable x.name) ∨
      ∃ found, (Γ.infer value).result = .ok found ∧ found ≠ x.ty ∧ e = .mismatch x.ty found := by
  rw [checkAssign] at h
  rcases Visit.andThen_eq_error_iff.mp h with he | ⟨found, hf, he⟩
  · exact Or.inl he
  · by_cases hx : Γ.Declares x
    · rw [typeOf_of_declares hx] at he
      obtain ⟨hne, rfl⟩ := Ty.expect_eq_error_iff.mp he
      exact Or.inr (Or.inr ⟨found, hf, hne, rfl⟩)
    · rw [typeOf_of_not_declares hx] at he
      exact Or.inr (Or.inl ⟨hx, ⟨found, hf⟩, (Except.error.inj he).symm⟩)

theorem checkCondition_eq_ok_iff {condition : Expr} :
    (Γ.checkCondition condition).result = .ok () ↔
      (Γ.infer condition).result = .ok .bool := by
  rw [checkCondition]
  simp only [Visit.andThen_eq_ok_iff]
  constructor
  · rintro ⟨t, ht, h⟩
    by_cases hb : t.isBool = true
    · rw [Ty.isBool_iff.mp hb] at ht
      exact ht
    · rw [if_neg hb] at h
      cases h
  · exact fun h => ⟨.bool, h, rfl⟩

theorem checkCondition_error_cases {condition : Expr}
    (h : (Γ.checkCondition condition).result = .error e) :
    (Γ.infer condition).result = .error e ∨
      ∃ t, (Γ.infer condition).result = .ok t ∧ t ≠ .bool ∧ e = .conditionNotBool t := by
  rw [checkCondition] at h
  rcases Visit.andThen_eq_error_iff.mp h with he | ⟨t, ht, he⟩
  · exact Or.inl he
  · refine Or.inr ⟨t, ht, ?_⟩
    by_cases hb : t.isBool = true
    · simp only [if_pos hb] at he
      cases he
    · simp only [if_neg hb] at he
      exact ⟨fun hc => hb (Ty.isBool_iff.mpr hc), (Except.error.inj he).symm⟩

theorem checkReturn_eq_ok_iff {value : Option Expr} :
    (Γ.checkReturn value).result = .ok () ↔
      (Γ.returns = .void ∧ value = none) ∨
        ∃ t a, Γ.returns = .value t ∧ value = some a ∧ (Γ.infer a).result = .ok t := by
  cases hr : Γ.returns with
  | void => cases value <;> simp [checkReturn, hr]
  | value expected =>
    cases value with
    | none => simp [checkReturn, hr]
    | some a =>
      simp only [checkReturn, hr, Visit.andThen_eq_ok_iff]
      constructor
      · rintro ⟨found, hf, h⟩
        by_cases hc : found = expected
        · exact Or.inr ⟨expected, a, rfl, rfl, hc ▸ hf⟩
        · rw [if_neg hc] at h
          cases h
      · rintro (⟨hv, _⟩ | ⟨t, b, ht, hb, hf⟩)
        · cases hv
        · cases ht
          cases hb
          exact ⟨expected, hf, if_pos rfl⟩

theorem checkReturn_error_cases {value : Option Expr}
    (h : (Γ.checkReturn value).result = .error e) :
    (∃ a t, value = some a ∧ Γ.returns = .value t ∧ (Γ.infer a).result = .error e) ∨
      (∃ a, value = some a ∧ Γ.returns = .void ∧ e = .valueFromVoid) ∨
      (∃ t, value = none ∧ Γ.returns = .value t ∧ e = .missingValue t) ∨
      ∃ a t found, value = some a ∧ Γ.returns = .value t ∧ (Γ.infer a).result = .ok found ∧
        found ≠ t ∧ e = .returnMismatch t found := by
  cases hr : Γ.returns with
  | void =>
    cases value with
    | none => simp [checkReturn, hr] at h
    | some a =>
      simp only [checkReturn, hr] at h
      exact Or.inr (Or.inl ⟨a, rfl, rfl, (Except.error.inj h).symm⟩)
  | value expected =>
    cases value with
    | none =>
      simp only [checkReturn, hr] at h
      exact Or.inr (Or.inr (Or.inl ⟨expected, rfl, rfl, (Except.error.inj h).symm⟩))
    | some a =>
      simp only [checkReturn, hr, Visit.andThen_eq_error_iff] at h
      rcases h with he | ⟨found, hf, he⟩
      · exact Or.inl ⟨a, expected, rfl, rfl, he⟩
      · by_cases hc : found = expected
        · rw [if_pos hc] at he
          cases he
        · rw [if_neg hc] at he
          exact Or.inr (Or.inr (Or.inr
            ⟨a, expected, found, rfl, rfl, hf, hc, (Except.error.inj he).symm⟩))

theorem headVerdict_call_eq_ok_iff {name : String} {args : List Expr} :
    Γ.headVerdict (.call name args) = .ok () ↔ ∃ ret, (Γ.checkCall name args).result = .ok ret := by
  rw [headVerdict, Except.map_eq_ok_iff]
  simp only [and_true]

theorem headVerdict_call_eq_error_iff {name : String} {args : List Expr} :
    Γ.headVerdict (.call name args) = .error e ↔ (Γ.checkCall name args).result = .error e := by
  rw [headVerdict, Except.map_eq_error_iff]

/-! ## What is accepted has parts that are -/

theorem exists_hasType_of_mem {es : List Expr} {ts : List Ty} (h : Γ.HaveTypes es ts) :
    ∀ a ∈ es, ∃ t, Γ.HasType a t := by
  induction es generalizing ts with
  | nil => simp
  | cons e es ih =>
    cases h with
    | cons he hrest =>
      intro a ha
      rcases List.mem_cons.mp ha with rfl | ha
      · exact ⟨_, he⟩
      · exact ih hrest a ha

/-- The children of a node whose type was found have types. -/
theorem exists_infer_of_child {e : Expr} {t : Ty} (h : (Γ.infer e).result = .ok t) :
    ∀ a ∈ e.children, ∃ u, (Γ.infer a).result = .ok u := by
  simp only [infer_eq_ok_iff] at h ⊢
  cases h with
  | const => simp [Expr.children]
  | var _ => simp [Expr.children]
  | binary hl hr _ => simpa [Expr.children] using ⟨⟨_, hl⟩, ⟨_, hr⟩⟩
  | not ha => simpa [Expr.children] using ⟨_, ha⟩
  | get ha _ => simpa [Expr.children] using ⟨_, ha⟩
  | set ha _ hv => simpa [Expr.children] using ⟨⟨_, ha⟩, ⟨_, hv⟩⟩
  | deref hp => simpa [Expr.children] using ⟨_, hp⟩
  | call _ htypes => exact exists_hasType_of_mem htypes

/-- All nodes of an expression whose type was found have types. -/
theorem exists_infer_of_mem_nodes {e n : Expr} {t : Ty} (h : (Γ.infer e).result = .ok t)
    (hn : n ∈ e.nodes) : ∃ u, (Γ.infer n).result = .ok u := by
  induction e using Expr.induction_children generalizing t with
  | step e ih =>
    rw [Expr.nodes_eq] at hn
    rcases List.mem_cons.mp hn with rfl | hn
    · exact ⟨t, h⟩
    · obtain ⟨a, ha, hn⟩ := Expr.mem_nodesIn.mp hn
      obtain ⟨u, hu⟩ := exists_infer_of_child h a ha
      exact ih a ha hu hn

/-- The expressions of a statement whose head is accepted have types. -/
theorem exists_infer_of_mem_exprs {s : Stmt} (h : Γ.headVerdict s = .ok ()) :
    ∀ a ∈ s.exprs, ∃ t, (Γ.infer a).result = .ok t := by
  intro a ha
  cases s with
  | define x value =>
    obtain rfl := Option.mem_toList.mp ha
    exact ⟨x.ty, (checkDefine_eq_ok_iff.mp h).2 a rfl⟩
  | assign x value =>
    rw [List.mem_singleton.mp ha]
    exact ⟨x.ty, (checkAssign_eq_ok_iff.mp h).2⟩
  | ret value =>
    obtain rfl := Option.mem_toList.mp ha
    rcases checkReturn_eq_ok_iff.mp h with ⟨-, hv⟩ | ⟨t, b, -, hv, hb⟩
    · cases hv
    · cases hv
      exact ⟨t, hb⟩
  | branch condition thenBlock elseBlock =>
    rw [List.mem_singleton.mp ha]
    exact ⟨.bool, checkCondition_eq_ok_iff.mp h⟩
  | loop condition body =>
    rw [List.mem_singleton.mp ha]
    exact ⟨.bool, checkCondition_eq_ok_iff.mp h⟩
  | call name args =>
    obtain ⟨ret, hr⟩ := headVerdict_call_eq_ok_iff.mp h
    obtain ⟨params, -, htypes⟩ := checkCall_eq_ok_iff.mp hr
    obtain ⟨t, ht⟩ := exists_hasType_of_mem htypes a ha
    exact ⟨t, infer_eq_ok_iff.mpr ht⟩

/-! ## Statements -/

section Statement

variable {s : Stmt}

/-- A statement with no block inside is nothing but its head. -/
theorem result_checkStmt_of_blocks_eq_nil (h : s.blocks = []) :
    (Γ.checkStmt s).result = Γ.headVerdict s := by
  cases s with
  | branch condition thenBlock elseBlock => cases h
  | loop condition body => cases h
  | _ => rw [checkStmt]; rfl

/-- **A statement is accepted exactly when its head and all blocks inside it are.** The blocks start
from the context in front of the statement. -/
theorem checkStmt_eq_ok_iff :
    (Γ.checkStmt s).result = .ok () ↔
      Γ.headVerdict s = .ok () ∧ ∀ b ∈ s.blocks, (Γ.checkBlock b).result = .ok () := by
  cases s with
  | branch condition thenBlock elseBlock =>
    simp only [checkStmt, headVerdict, Stmt.blocks, Passage.entering, Passage.keeping,
      Visit.result_entering, Visit.andThen_eq_ok_iff, List.forall_mem_cons]
    constructor
    · rintro ⟨_, hc, _, ht, he⟩
      exact ⟨hc, ht, he, by simp⟩
    · rintro ⟨hc, ht, he, _⟩
      exact ⟨(), hc, (), ht, he⟩
  | loop condition body =>
    simp only [checkStmt, headVerdict, Stmt.blocks, Passage.entering, Passage.keeping,
      Visit.result_entering, Visit.andThen_eq_ok_iff, List.forall_mem_cons]
    constructor
    · rintro ⟨_, hc, hb⟩
      exact ⟨hc, hb, by simp⟩
    · rintro ⟨hc, hb, _⟩
      exact ⟨(), hc, hb⟩
  | _ =>
    rw [result_checkStmt_of_blocks_eq_nil rfl]
    exact ⟨fun h => ⟨h, by simp [Stmt.blocks]⟩, fun h => h.1⟩

/-- A statement fails in its head or in one of the blocks inside it. -/
theorem checkStmt_error_cases (h : (Γ.checkStmt s).result = .error e) :
    Γ.headVerdict s = .error e ∨
      ∃ (k : Nat) (b : Block), s.blocks[k]? = some b ∧ (Γ.checkBlock b).result = .error e := by
  cases s with
  | branch condition thenBlock elseBlock =>
    simp only [checkStmt, Passage.entering, Passage.keeping, Visit.result_entering,
      Visit.andThen_eq_error_iff] at h
    rcases h with hc | ⟨_, _, ht | ⟨_, _, he⟩⟩
    · exact Or.inl hc
    · exact Or.inr ⟨0, thenBlock, rfl, ht⟩
    · exact Or.inr ⟨1, elseBlock, rfl, he⟩
  | loop condition body =>
    simp only [checkStmt, Passage.entering, Passage.keeping, Visit.result_entering,
      Visit.andThen_eq_error_iff] at h
    rcases h with hc | ⟨_, _, hb⟩
    · exact Or.inl hc
    · exact Or.inr ⟨0, body, rfl, hb⟩
  | _ =>
    rw [result_checkStmt_of_blocks_eq_nil rfl] at h
    exact Or.inl h

/-- **Behind an accepted statement the variable that it introduces is known in addition.** -/
theorem context_checkStmt_of_ok (h : (Γ.checkStmt s).result = .ok ()) :
    (Γ.checkStmt s).context = Γ.addAll s.defines?.toList := by
  have hhead := (checkStmt_eq_ok_iff.mp h).1
  cases s with
  | define x value =>
    rw [checkStmt]
    exact context_checkDefine_of_ok hhead
  | _ => rw [checkStmt]; rfl

end Statement

/-! ## Blocks -/

section Block

variable {s : Stmt} {ss : List Stmt}

theorem checkBlock_nil : (Γ.checkBlock []).result = .ok () := by
  rw [checkBlock]

/-- **A block is accepted exactly when its first statement is, and the rest behind it.** -/
theorem checkBlock_cons_eq_ok_iff :
    (Γ.checkBlock (s :: ss)).result = .ok () ↔
      (Γ.checkStmt s).result = .ok () ∧
        ((Γ.addAll s.defines?.toList).checkBlock ss).result = .ok () := by
  rw [checkBlock]
  cases hs : (Γ.checkStmt s).result with
  | error e => simp
  | ok _ => simp [context_checkStmt_of_ok hs]

theorem checkBlock_cons_eq_error_iff :
    (Γ.checkBlock (s :: ss)).result = .error e ↔
      (Γ.checkStmt s).result = .error e ∨
        (Γ.checkStmt s).result = .ok () ∧
          ((Γ.addAll s.defines?.toList).checkBlock ss).result = .error e := by
  rw [checkBlock]
  cases hs : (Γ.checkStmt s).result with
  | error e => simp
  | ok _ => simp [context_checkStmt_of_ok hs]

/-- **Behind an accepted block the variables that it introduces directly are known in addition.** -/
theorem context_checkBlock_of_ok (h : (Γ.checkBlock ss).result = .ok ()) :
    (Γ.checkBlock ss).context = Γ.addAll (Block.defined ss) := by
  induction ss generalizing Γ with
  | nil => rw [checkBlock, Block.defined_nil, addAll_nil]
  | cons s ss ih =>
    obtain ⟨hs, hss⟩ := checkBlock_cons_eq_ok_iff.mp h
    rw [Block.defined_cons, addAll_append, ← ih hss, checkBlock]
    simp only [hs, context_checkStmt_of_ok hs]

end Block

/-! ## Functions -/

section Function

variable {params : List Symbol} {body : Block}

theorem checkFunction_eq_ok_iff :
    (Γ.checkFunction params body).result = .ok () ↔
      Γ.Fresh params ∧ ((Γ.addAll params).checkBlock body).result = .ok () := by
  rw [checkFunction]
  simp only [Visit.result_entering, Visit.guarded_eq_ok_iff, Visit.andThen_eq_ok_iff,
    declareParams_eq_ok_iff]
  constructor
  · rintro ⟨Δ, ⟨hf, rfl⟩, _, hb, _⟩
    exact ⟨hf, hb⟩
  · rintro ⟨hf, hb⟩
    exact ⟨_, ⟨hf, rfl⟩, (), hb, trivial⟩

/-- A function fails in its parameters, or in its body with the parameters declared. -/
theorem checkFunction_eq_error_iff :
    (Γ.checkFunction params body).result = .error e ↔
      Γ.declareParams params = .error e ∨
        Γ.Fresh params ∧ ((Γ.addAll params).checkBlock body).result = .error e := by
  rw [checkFunction]
  simp only [Visit.result_entering, Visit.guarded_eq_error_iff, Visit.andThen_eq_error_iff,
    declareParams_eq_ok_iff]
  constructor
  · rintro (hp | ⟨Δ, ⟨hf, rfl⟩, hb | ⟨_, _, hc⟩⟩)
    · exact Or.inl hp
    · exact Or.inr ⟨hf, hb⟩
    · cases hc
  · rintro (hp | ⟨hf, hb⟩)
    · exact Or.inl hp
    · exact Or.inr ⟨_, ⟨hf, rfl⟩, Or.inl hb⟩

/-- Nothing but the span is reported when a parameter is refused, and the body is left alone. -/
theorem checkFunction_of_declareParams_error (h : Γ.declareParams params = .error e) :
    Γ.checkFunction params body = ⟨.error e, body, [.enterFunction params.length]⟩ := by
  rw [checkFunction, h]
  rfl

end Function

end BlockLang.Context
