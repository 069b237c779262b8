import BlockLang.Proofs.Typing.Verdict

/-!
# What checking declares

The context behind a block is known exactly, whether the block is accepted or not. Signatures and
result are never touched, and what is declared inside a branch or a loop never comes out of it.
Behind an accepted block there are the variables that it introduces directly, all of which were new.
Behind a refused one there are those that were introduced in front of the statement that failed.

There is one exception, as a definition declares its variable before it compares the types: where
only the types differ, the variable of the failing statement is declared as well (`Misdefines`).

* `context_checkStmt_of_defines?_eq_none` — no statement but a definition changes the context;
* `context_checkStmt_of_error` — what a failing statement leaves behind;
* `checkBlock_append_of_ok` — a block goes on behind its accepted part as if it started there;
* `checkBlock_declares_exactly` — the context behind a block.
-/

namespace BlockLang.Context

variable {Γ : Context} {s : Stmt} {block : Block} {e : TypeError} {k : Nat}

/-- The statement introduces the variable, which is new, with a value of another type. -/
def Misdefines (Γ : Context) (s : Stmt) (x : Symbol) : Prop :=
  ¬ Γ.Declares x ∧
    ∃ a found, s = .define x (some a) ∧ (Γ.infer a).result = .ok found ∧ found ≠ x.ty

/-- The block fails in its `k`-th statement: what stands in front of it is accepted, and the
statement itself fails in the context behind that. -/
def FailsAt (Γ : Context) (block : Block) (k : Nat) (e : TypeError) : Prop :=
  (Γ.checkBlock (block.take k)).result = .ok () ∧
    ∃ s, block[k]? = some s ∧
      ((Γ.checkBlock (block.take k)).context.checkStmt s).result = .error e

/-! ## Statements -/

/-- **No statement but a definition changes the context**, whatever the verdict on it and on the
blocks inside it. -/
theorem context_checkStmt_of_defines?_eq_none (h : s.defines? = none) :
    (Γ.checkStmt s).context = Γ := by
  cases s with
  | define x value => cases h
  | _ => rw [checkStmt]; rfl

theorem context_checkDefine_of_declares {x : Symbol} {value : Option Expr} (hx : Γ.Declares x) :
    (Γ.checkDefine x value).context = Γ := by
  cases value with
  | none => rw [checkDefine, declare_of_declares hx]
  | some a =>
    cases hr : (Γ.infer a).result with
    | error e' => simp only [checkDefine, hr]
    | ok found => simp only [checkDefine, hr, declare_of_declares hx]

theorem context_checkDefine_of_infer_error {x : Symbol} {a : Expr}
    (ha : (Γ.infer a).result = .error e) : (Γ.checkDefine x (some a)).context = Γ := by
  simp only [checkDefine, ha]

/-- The variable is declared before the types are compared. -/
theorem context_checkDefine_of_infer_ok {x : Symbol} {a : Expr} {found : Ty}
    (hx : ¬ Γ.Declares x) (ha : (Γ.infer a).result = .ok found) :
    (Γ.checkDefine x (some a)).context = Γ.add x := by
  simp only [checkDefine, ha, declare_of_not_declares hx]

/-- **A failing statement leaves its variable behind if only the types differ, and nothing
otherwise.** -/
theorem context_checkStmt_of_error (h : (Γ.checkStmt s).result = .error e) :
    (∃ x, Γ.Misdefines s x ∧ (Γ.checkStmt s).context = Γ.add x) ∨
      (∀ x, ¬ Γ.Misdefines s x) ∧ (Γ.checkStmt s).context = Γ := by
  cases s with
  | define x value =>
    have hcontext : (Γ.checkStmt (.define x value)).context = (Γ.checkDefine x value).context := by
      rw [checkStmt]
      rfl
    rw [result_checkStmt_of_blocks_eq_nil rfl] at h
    rw [hcontext]
    by_cases hx : Γ.Declares x
    · refine Or.inr ⟨?_, context_checkDefine_of_declares hx⟩
      rintro y ⟨hy, b, found, hs, -⟩
      cases hs
      exact hy hx
    · rcases checkDefine_error_cases h with ⟨a, rfl, ha⟩ | ⟨hd, -⟩ | ⟨a, found, rfl, ha, hne, -⟩
      · refine Or.inr ⟨?_, context_checkDefine_of_infer_error ha⟩
        rintro y ⟨-, b, found, hs, hb, -⟩
        cases hs
        rw [ha] at hb
        cases hb
      · exact absurd hd hx
      · exact Or.inl ⟨x, ⟨hx, a, found, rfl, ha, hne⟩, context_checkDefine_of_infer_ok hx ha⟩
  | _ =>
    refine Or.inr ⟨?_, context_checkStmt_of_defines?_eq_none rfl⟩
    rintro y ⟨-, b, found, hs, -⟩
    cases hs

/-- What an accepted statement introduces is new. -/
theorem fresh_defines_of_ok (h : (Γ.checkStmt s).result = .ok ()) :
    Γ.Fresh s.defines?.toList := by
  have hhead := (checkStmt_eq_ok_iff.mp h).1
  cases s with
  | define x value => exact fresh_cons.mpr ⟨(checkDefine_eq_ok_iff.mp hhead).1, fresh_nil⟩
  | _ => exact fresh_nil

/-! ## Blocks -/

/-- **What an accepted block introduces directly is pairwise distinct and new.** -/
theorem fresh_defined_of_ok (h : (Γ.checkBlock block).result = .ok ()) :
    Γ.Fresh (Block.defined block) := by
  induction block generalizing Γ with
  | nil => exact fresh_nil
  | cons s ss ih =>
    obtain ⟨hs, hss⟩ := checkBlock_cons_eq_ok_iff.mp h
    rw [Block.defined_cons]
    exact fresh_append.mpr ⟨fresh_defines_of_ok hs, ih hss⟩

theorem checkBlock_cons_of_error {ss : List Stmt} (h : (Γ.checkStmt s).result = .error e) :
    (Γ.checkBlock (s :: ss)).context = (Γ.checkStmt s).context ∧
      (Γ.checkBlock (s :: ss)).log = (Γ.checkStmt s).log := by
  rw [checkBlock]
  simp only [h, and_self]

/-- **Behind an accepted part a block goes on as if it started there.** -/
theorem checkBlock_append_of_ok {pre : Block} (h : (Γ.checkBlock pre).result = .ok ())
    (post : Block) :
    (Γ.checkBlock (pre ++ post)).result = ((Γ.checkBlock pre).context.checkBlock post).result ∧
      (Γ.checkBlock (pre ++ post)).context =
        ((Γ.checkBlock pre).context.checkBlock post).context ∧
      (Γ.checkBlock (pre ++ post)).log =
        (Γ.checkBlock pre).log ++ ((Γ.checkBlock pre).context.checkBlock post).log := by
  induction pre generalizing Γ with
  | nil => rw [checkBlock, List.nil_append]; exact ⟨rfl, rfl, rfl⟩
  | cons s ss ih =>
    have hs : (Γ.checkStmt s).result = .ok () := (checkBlock_cons_eq_ok_iff.mp h).1
    have hss : ((Γ.checkStmt s).context.checkBlock ss).result = .ok () := by
      rw [context_checkStmt_of_ok hs]
      exact (checkBlock_cons_eq_ok_iff.mp h).2
    obtain ⟨hresult, hcontext, hlog⟩ := ih hss
    rw [List.cons_append, checkBlock, checkBlock]
    simp only [hs]
    exact ⟨hresult, hcontext, by rw [hlog, List.append_assoc]⟩

/-- A block that fails does so in one of its statements. -/
theorem exists_failsAt (h : (Γ.checkBlock block).result = .error e) :
    ∃ k, Γ.FailsAt block k e := by
  induction block generalizing Γ with
  | nil =>
    rw [checkBlock_nil] at h
    cases h
  | cons s ss ih =>
    rcases checkBlock_cons_eq_error_iff.mp h with hs | ⟨hs, hss⟩
    · refine ⟨0, checkBlock_nil, s, rfl, ?_⟩
      rw [List.take_zero, checkBlock]
      exact hs
    · obtain ⟨k, hpre, r, hr, he⟩ := ih hss
      -- the statements in front are counted from `s` on
      have hcontext : (Γ.checkBlock ((s :: ss).take (k + 1))).context =
          ((Γ.addAll s.defines?.toList).checkBlock (ss.take k)).context := by
        rw [List.take_succ_cons, checkBlock]
        simp only [hs, context_checkStmt_of_ok hs]
      refine ⟨k + 1, ?_, r, ?_, ?_⟩
      · rw [List.take_succ_cons]
        exact checkBlock_cons_eq_ok_iff.mpr ⟨hs, hpre⟩
      · rw [List.getElem?_cons_succ]
        exact hr
      · rw [hcontext]
        exact he

/-- What stands behind the failing statement plays no part. -/
theorem FailsAt.outcome (h : Γ.FailsAt block k e) :
    (Γ.checkBlock block).result = .error e ∧
      ∃ s, block[k]? = some s ∧
        ((Γ.checkBlock (block.take k)).context.checkStmt s).result = .error e ∧
        (Γ.checkBlock block).context =
          ((Γ.checkBlock (block.take k)).context.checkStmt s).context ∧
        (Γ.checkBlock block).log = (Γ.checkBlock (block.take k)).log ++
          ((Γ.checkBlock (block.take k)).context.checkStmt s).log := by
  obtain ⟨hpre, s, hs, he⟩ := h
  have hsplit : block.take k ++ s :: block.drop (k + 1) = block := by
    obtain ⟨hk, rfl⟩ := List.getElem?_eq_some_iff.mp hs
    rw [List.getElem_cons_drop, List.take_append_drop]
  obtain ⟨hresult, hcontext, hlog⟩ := checkBlock_append_of_ok hpre (s :: block.drop (k + 1))
  rw [hsplit] at hresult hcontext hlog
  refine ⟨?_, s, hs, he, ?_, ?_⟩
  · rw [hresult]
    exact checkBlock_cons_eq_error_iff.mpr (Or.inl he)
  · rw [hcontext, (checkBlock_cons_of_error he).1]
  · rw [hlog, (checkBlock_cons_of_error he).2]

/-- Behind a failing block there is what was introduced in front of the failing statement, and the
variable of that statement if only the types differ. -/
theorem FailsAt.declares_iff (h : Γ.FailsAt block k e) (x : Symbol) :
    (Γ.checkBlock block).context.Declares x ↔
      Γ.Declares x ∨ (∃ y ∈ Block.defined (block.take k), y.id = x.id) ∨
        ∃ s y, block[k]? = some s ∧
          (Γ.checkBlock (block.take k)).context.Misdefines s y ∧ y.id = x.id := by
  obtain ⟨-, s, hs, he, hcontext, -⟩ := h.outcome
  have hbefore : (Γ.checkBlock (block.take k)).context.Declares x ↔
      (∃ y ∈ Block.defined (block.take k), y.id = x.id) ∨ Γ.Declares x := by
    rw [context_checkBlock_of_ok h.1, declares_addAll, List.mem_map]
  rw [hcontext]
  rcases context_checkStmt_of_error he with ⟨z, hz, hc⟩ | ⟨hnone, hc⟩
  · rw [hc, declares_add, hbefore]
    constructor
    · rintro (hx | hx | hx)
      · exact Or.inr (Or.inr ⟨s, z, hs, hz, hx.symm⟩)
      · exact Or.inr (Or.inl hx)
      · exact Or.inl hx
    · rintro (hx | hx | ⟨r, y, hr, ⟨-, a, found, hy, -⟩, hid⟩)
      · exact Or.inr (Or.inr hx)
      · exact Or.inr (Or.inl hx)
      · -- a statement introduces one variable only
        obtain ⟨-, a', found', hz, -⟩ := hz
        rw [hs] at hr
        cases hr
        rw [hz] at hy
        cases hy
        exact Or.inl hid.symm
  · rw [hc, hbefore]
    constructor
    · rintro (hx | hx)
      · exact Or.inr (Or.inl hx)
      · exact Or.inl hx
    · rintro (hx | hx | ⟨r, y, hr, hy, -⟩)
      · exact Or.inr hx
      · exact Or.inl hx
      · rw [hs] at hr
        cases hr
        exact absurd hy (hnone y)

/-- Checking touches neither the signatures nor the result. -/
theorem signatures_returns_checkBlock (Γ : Context) (block : Block) :
    (Γ.checkBlock block).context.signatures = Γ.signatures ∧
      (Γ.checkBlock block).context.returns = Γ.returns := by
  cases h : (Γ.checkBlock block).result with
  | ok _ =>
    rw [context_checkBlock_of_ok h]
    exact ⟨signatures_addAll, returns_addAll⟩
  | error e =>
    obtain ⟨k, hk⟩ := exists_failsAt h
    obtain ⟨-, s, -, he, hcontext, -⟩ := hk.outcome
    rcases context_checkStmt_of_error he with ⟨x, -, hc⟩ | ⟨-, hc⟩
    · rw [hcontext, hc, signatures_add, returns_add, context_checkBlock_of_ok hk.1]
      exact ⟨signatures_addAll, returns_addAll⟩
    · rw [hcontext, hc, context_checkBlock_of_ok hk.1]
      exact ⟨signatures_addAll, returns_addAll⟩

/--
**The context behind a block, exactly.**

Signatures and result are those in front of it. If the block is accepted, the variables that it
introduces directly are pairwise distinct and new, and are declared in addition, each counted once.
If it is refused, it fails in one of its statements; then the variables are declared that are
introduced directly in front of that statement, and the variable of the statement itself if it is
new and its value has another type, but no others. A statement that is no definition leaves the
context as it was, at any depth and whatever the verdict.
-/
theorem checkBlock_declares_exactly (Γ : Context) (block : Block) :
    ((Γ.checkBlock block).context.signatures = Γ.signatures ∧
      (Γ.checkBlock block).context.returns = Γ.returns) ∧
    ((Γ.checkBlock block).result = .ok () →
      ((Block.defined block).map Symbol.id).Nodup ∧
      (∀ y ∈ Block.defined block, ¬ Γ.Declares y) ∧
      (∀ x, (Γ.checkBlock block).context.Declares x ↔
        Γ.Declares x ∨ ∃ y ∈ Block.defined block, y.id = x.id) ∧
      (Γ.checkBlock block).context.scope.size =
        Γ.scope.size + (Block.defined block).length) ∧
    (∀ e, (Γ.checkBlock block).result = .error e ↔ ∃ k, Γ.FailsAt block k e) ∧
    (∀ k e, Γ.FailsAt block k e → ∀ x, (Γ.checkBlock block).context.Declares x ↔
      Γ.Declares x ∨ (∃ y ∈ Block.defined (block.take k), y.id = x.id) ∨
        ∃ s y, block[k]? = some s ∧
          (Γ.checkBlock (block.take k)).context.Misdefines s y ∧ y.id = x.id) ∧
    ∀ (Δ : Context) (s : Stmt), s.defines? = none → (Δ.checkStmt s).context = Δ := by
  refine ⟨signatures_returns_checkBlock Γ block, fun h => ?_, fun e => ?_, ?_, ?_⟩
  · obtain ⟨hnodup, hnew⟩ := fresh_defined_of_ok h
    refine ⟨hnodup, hnew, fun x => ?_, ?_⟩
    · rw [context_checkBlock_of_ok h, declares_addAll, List.mem_map]
      exact Or.comm
    · rw [context_checkBlock_of_ok h]
      exact size_addAll_of_fresh ⟨hnodup, hnew⟩
  · exact ⟨exists_failsAt, fun ⟨k, hk⟩ => hk.outcome.1⟩
  · exact fun k e h x => h.declares_iff x
  · exact fun Δ s h => context_checkStmt_of_defines?_eq_none h

/-- The number `x` is introduced, `z` inside a branch, `y` with a truth value, and `w` behind it. -/
def misfitBlock : Block :=
  [.define ⟨⟨0⟩, "x", .int .w32⟩ (some (.const none (.int .w32 1))),
    .branch (.const none (.bool true)) [.define ⟨⟨1⟩, "z", .bool⟩ none] [],
    .define ⟨⟨2⟩, "y", .int .w32⟩ (some (.const none (.bool true))),
    .define ⟨⟨3⟩, "w", .bool⟩ none]

/-- The block fails at `y`, which is declared all the same; `z` and `w` are not. Up to there it is
accepted and declares one variable, the branch none. -/
theorem misfitBlock_declares_exactly :
    let Γ : Context := {}
    Γ.FailsAt misfitBlock 2 (.mismatch (.int .w32) .bool) ∧
      (Γ.checkBlock misfitBlock).result = .error (.mismatch (.int .w32) .bool) ∧
      (Γ.checkBlock misfitBlock).context.Declares ⟨⟨2⟩, "y", .int .w32⟩ ∧
      (∀ x ∈ [(⟨⟨1⟩, "z", .bool⟩ : Symbol), ⟨⟨3⟩, "w", .bool⟩],
        ¬ (Γ.checkBlock misfitBlock).context.Declares x) ∧
      (Γ.checkBlock (misfitBlock.take 2)).context.scope.size = 1 ∧
      ∀ (Δ : Context) c, (Δ.checkStmt (.branch c misfitBlock [])).context = Δ := by
  intro Γ
  have hfails : Γ.FailsAt misfitBlock 2 (.mismatch (.int .w32) .bool) := ⟨rfl, _, rfl, rfl⟩
  obtain ⟨-, -, hverdict, hfail, hkeep⟩ := checkBlock_declares_exactly Γ misfitBlock
  obtain ⟨-, haccepted, -⟩ := checkBlock_declares_exactly Γ (misfitBlock.take 2)
  refine ⟨hfails, (hverdict _).mpr ⟨2, hfails⟩, ?_, ?_, (haccepted rfl).2.2.2, ?_⟩
  · refine (hfail 2 _ hfails _).mpr (Or.inr (Or.inr ⟨_, _, rfl, ⟨?_, _, _, rfl, rfl, ?_⟩, rfl⟩))
    · decide
    · decide
  · decide
  · exact fun Δ c => hkeep Δ _ rfl

end BlockLang.Context
