import BlockLang.Proofs.Renaming.Basic
import BlockLang.Proofs.Typing.Locality

/-!
# Only identities count

Typing looks at the name of a variable only to put it into an error. So renaming the variables of a
program, one-to-one on identities and in any way on names, changes neither the verdict nor the
recorded types, and an error that names a variable has the new name of the same variable instead
(`checkFunction_rename`).

Which variable an error is about cannot be read off the error, as several variables may have one
name. Therefore a run is compared with its renamed runs all at once: `Traced` asks for **one**
variable that accounts for the error under every renaming. `Visit.Follows` adds that the tree that
is left is renamed. Each way in which visits are put together respects this, and the induction over
the tree is assembled from these lemmas.
-/

namespace BlockLang

/-! ## Errors about variables -/

namespace TypeError

/-- The error is about a variable, which it names. -/
def namesVariable : TypeError → Bool
  | undeclaredVariable _ => true
  | redeclared _ => true
  | duplicateParameter _ => true
  | _ => false

/-- The error with another name for the variable that it is about. -/
def naming (name : String) : TypeError → TypeError
  | undeclaredVariable _ => undeclaredVariable name
  | redeclared _ => redeclared name
  | duplicateParameter _ => duplicateParameter name
  | e => e

@[simp] theorem namesVariable_naming (name : String) (e : TypeError) :
    (e.naming name).namesVariable = e.namesVariable := by
  cases e <;> rfl

@[simp] theorem naming_naming (first second : String) (e : TypeError) :
    (e.naming first).naming second = e.naming second := by
  cases e <;> rfl

end TypeError

/-! ## Verdicts under all renamings -/

/-- What becomes of a verdict under all renamings. A good one stays, and so does an error that is
not about a variable. An error about a variable is about the same variable under every renaming, one
with the property `P`. -/
inductive Traced (P : Symbol → Prop) {τ : Type} (r : Except TypeError τ)
    (R : Renaming → Except TypeError τ) : Prop
  | good {a : τ} : r = .ok a → (∀ ρ, R ρ = .ok a) → Traced P r R
  | same {e : TypeError} : r = .error e → e.namesVariable = false → (∀ ρ, R ρ = .error e) →
      Traced P r R
  | named {e : TypeError} {x : Symbol} : e.namesVariable = true → P x →
      r = .error (e.naming x.name) → (∀ ρ, R ρ = .error (e.naming (ρ.name x))) → Traced P r R

/-- The rule gives no error about a variable. -/
def Nameless {τ : Type} (r : Except TypeError τ) : Prop :=
  ∀ e, r = .error e → e.namesVariable = false

section Traced

variable {P : Symbol → Prop} {τ σ : Type} {r : Except TypeError τ}
variable {R : Renaming → Except TypeError τ}

theorem Traced.of_nameless (h : Nameless r) : Traced P r fun _ => r := by
  cases hr : r with
  | ok a => exact .good rfl fun _ => rfl
  | error e => exact .same rfl (h e hr) fun _ => rfl

theorem Traced.map (h : Traced P r R) (g : τ → σ) : Traced P (r.map g) fun ρ => (R ρ).map g := by
  cases h with
  | good hr hR => exact .good (by rw [hr]; rfl) fun ρ => by rw [hR ρ]; rfl
  | same hr he hR => exact .same (by rw [hr]; rfl) he fun ρ => by rw [hR ρ]; rfl
  | named he hx hr hR => exact .named he hx (by rw [hr]; rfl) fun ρ => by rw [hR ρ]; rfl

theorem Traced.bind {next : τ → Except TypeError σ} {N : Renaming → τ → Except TypeError σ}
    (h : Traced P r R) (hnext : ∀ t, Traced P (next t) fun ρ => N ρ t) :
    Traced P (r.bind next) fun ρ => (R ρ).bind (N ρ) := by
  cases h with
  | @good t hr hR =>
    rw [hr]
    simp only [hR]
    exact hnext t
  | same hr he hR => exact .same (by rw [hr]; rfl) he fun ρ => by rw [hR ρ]; rfl
  | named he hx hr hR => exact .named he hx (by rw [hr]; rfl) fun ρ => by rw [hR ρ]; rfl

theorem Traced.ok_iff (h : Traced P r R) {t : τ} (ρ : Renaming) : R ρ = .ok t ↔ r = .ok t := by
  cases h with
  | good hr hR => rw [hr, hR ρ]
  | same hr he hR => rw [hr, hR ρ]
  | named he hx hr hR => simp [hr, hR ρ]

/-- An error names no variable and stays, or names one variable and is renamed with it. -/
theorem Traced.error (h : Traced P r R) {e : TypeError} (he : r = .error e) :
    (e.namesVariable = false → ∀ ρ, R ρ = .error e) ∧
      (e.namesVariable = true → ∃ x, P x ∧ e = e.naming x.name ∧
        ∀ ρ, R ρ = .error (e.naming (ρ.name x))) := by
  cases h with
  | good hr hR =>
    rw [hr] at he
    cases he
  | same hr hp hR =>
    rw [hr] at he
    cases he
    exact ⟨fun _ => hR, fun hc => absurd hp (by simp [hc])⟩
  | @named e x hp hx hr hR =>
    rw [hr] at he
    cases he
    simp only [TypeError.namesVariable_naming, TypeError.naming_naming]
    exact ⟨fun hc => absurd hp (by simp [hc]), fun _ => ⟨x, hx, rfl, hR⟩⟩

end Traced

/-! ### Rules on types -/

theorem nameless_apply {op : BinaryOp} {l r : Ty} : Nameless (op.apply l r) := by
  intro e h
  obtain ⟨rfl, -⟩ := BinaryOp.apply_eq_error_iff.mp h
  rfl

theorem nameless_negate {t : Ty} : Nameless t.negate := by
  intro e h
  obtain ⟨-, rfl⟩ := Ty.negate_eq_error_iff.mp h
  rfl

theorem nameless_target {t : Ty} : Nameless t.target := by
  intro e h
  obtain ⟨-, rfl⟩ := Ty.target_eq_error_iff.mp h
  rfl

theorem nameless_expect {expected found : Ty} : Nameless (expected.expect found) := by
  intro e h
  obtain ⟨-, rfl⟩ := Ty.expect_eq_error_iff.mp h
  rfl

theorem nameless_asValue {ret : ReturnTy} {name : String} : Nameless (ret.asValue name) := by
  intro e h
  obtain ⟨-, rfl⟩ := ReturnTy.asValue_eq_error_iff.mp h
  rfl

theorem nameless_elementAt {t : Ty} {f : Selector} : Nameless (t.elementAt f) := by
  intro e h
  cases Ty.lacks_of_elementAt_error h <;> rfl

theorem nameless_callee {Γ : Context} {name : String} {count : Nat} :
    Nameless (Γ.callee name count) := by
  intro e h
  rw [Context.callee] at h
  cases hf : Γ.signatures.find? name with
  | none =>
    rw [hf] at h
    cases h
    rfl
  | some sig =>
    rw [hf] at h
    by_cases hlen : sig.params.length = count
    · simp only [if_pos hlen] at h
      cases h
    · simp only [if_neg hlen] at h
      cases h
      rfl

theorem Nameless.map {τ σ : Type} {r : Except TypeError τ} (h : Nameless r) (g : τ → σ) :
    Nameless (r.map g) := by
  intro e he
  exact h e (Except.map_eq_error_iff.mp he)

/-- A test that gives an error of its own, not about a variable. -/
theorem nameless_ite {c : Prop} [Decidable c] {e : TypeError} (he : e.namesVariable = false) :
    Nameless (if c then .ok () else .error e) := by
  intro e' h
  by_cases hc : c
  · rw [if_pos hc] at h
    cases h
  · rw [if_neg hc] at h
    cases h
    exact he

/-! ## Visits under all renamings -/

/-- The visits of the renamed parts come to the traced verdict and leave the renamed part. How a
part is renamed depends on what it is. -/
structure Visit.Follows (P : Symbol → Prop) {τ α : Type} (rename : Renaming → α → α)
    (v : Visit τ α) (V : Renaming → Visit τ α) : Prop where
  result : Traced P v.result fun ρ => (V ρ).result
  node : ∀ ρ, (V ρ).node = rename ρ v.node

namespace Visit.Follows

variable {P : Symbol → Prop} {τ σ α β : Type}
variable {renameα : Renaming → α → α} {renameβ : Renaming → β → β}
variable {v : Visit τ α} {V : Renaming → Visit τ α}

theorem andThen {stopped : α → β} {S : Renaming → α → β} {next : τ → Visit σ β}
    {N : Renaming → τ → Visit σ β} (h : Visit.Follows P renameα v V)
    (hstop : ∀ ρ a, S ρ (renameα ρ a) = renameβ ρ (stopped a))
    (hnext : ∀ t, Visit.Follows P renameβ (next t) fun ρ => N ρ t) :
    Visit.Follows P renameβ (v.andThen stopped next) fun ρ => (V ρ).andThen (S ρ) (N ρ) := by
  have hstopped : ∀ ρ, S ρ (V ρ).node = renameβ ρ (stopped v.node) := by
    intro ρ
    rw [h.node ρ, hstop]
  cases h.result with
  | @good t hr hR =>
    rw [andThen_ok hr]
    simp only [andThen_ok (hR _)]
    exact ⟨(hnext t).result, (hnext t).node⟩
  | same hr he hR =>
    rw [andThen_error hr]
    simp only [andThen_error (hR _)]
    exact ⟨.same rfl he fun _ => rfl, hstopped⟩
  | named he hx hr hR =>
    rw [andThen_error hr]
    simp only [andThen_error (hR _)]
    exact ⟨.named he hx rfl fun _ => rfl, hstopped⟩

theorem guarded {rule : Except TypeError σ} {node : α} {N : Renaming → α} {next : σ → Visit τ α}
    {K : Renaming → σ → Visit τ α} (h : Nameless rule) (hn : ∀ ρ, N ρ = renameα ρ node)
    (hnext : ∀ a, Visit.Follows P renameα (next a) fun ρ => K ρ a) :
    Visit.Follows P renameα (.guarded rule node next) fun ρ => .guarded rule (N ρ) (K ρ) := by
  cases hr : rule with
  | ok a => exact hnext a
  | error e => exact ⟨.same rfl (h e hr) fun _ => rfl, hn⟩

/-- The type that is recorded at the end is the same under every renaming. -/
theorem settle {r : Except TypeError Ty} {R : Renaming → Except TypeError Ty} {node : Expr}
    {N : Renaming → Expr} (h : Traced P r R) (hn : ∀ ρ, N ρ = node.rename ρ) :
    Visit.Follows P Expr.rename (.settle r node) fun ρ => .settle (R ρ) (N ρ) := by
  cases h with
  | @good t hr hR =>
    rw [hr]
    simp only [hR, hn, settle_ok]
    exact ⟨.good rfl fun _ => rfl, fun _ => (Expr.rename_record t node).symm⟩
  | same hr he hR =>
    rw [hr]
    simp only [hR, settle_error]
    exact ⟨.same rfl he fun _ => rfl, hn⟩
  | named he hx hr hR =>
    rw [hr]
    simp only [hR, settle_error]
    exact ⟨.named he hx rfl fun _ => rfl, hn⟩

theorem entering (h : Visit.Follows P renameα v V) (event : Event) :
    Visit.Follows P renameα (v.entering event) fun ρ => (V ρ).entering event :=
  ⟨h.result, h.node⟩

end Visit.Follows

/-! ## Expressions -/

namespace Context

variable {Γ : Context} {P : Symbol → Prop}

/-- A variable that is not declared is named, under every renaming. -/
theorem typeOf_traced {x : Symbol} (hx : P x) :
    Traced P (Γ.typeOf x) fun ρ => (Γ.rename ρ).typeOf (ρ.symbol x) := by
  by_cases h : Γ.Declares x
  · have hρ : ∀ ρ : Renaming, (Γ.rename ρ).typeOf (ρ.symbol x) = .ok x.ty :=
      fun ρ => typeOf_of_declares (declares_rename.mpr h)
    exact .good (typeOf_of_declares h) hρ
  · have hρ : ∀ ρ : Renaming,
        (Γ.rename ρ).typeOf (ρ.symbol x) = .error (.undeclaredVariable (ρ.name x)) :=
      fun ρ => typeOf_of_not_declares fun hc => h (declares_rename.mp hc)
    exact .named (e := .undeclaredVariable x.name) rfl hx (typeOf_of_not_declares h) hρ

/-- Inference follows the renamings of the expression. -/
def InferFollows (Γ : Context) (P : Symbol → Prop) (e : Expr) : Prop :=
  Visit.Follows P Expr.rename (Γ.infer e) fun ρ => (Γ.rename ρ).infer (e.rename ρ)

theorem inferArgs_follows {name : String} {ret : ReturnTy} {k : Nat} {es : List Expr}
    {ts : List Ty} (h : ∀ a ∈ es, Γ.InferFollows P a) :
    Visit.Follows P Expr.renameAll (Γ.inferArgs name ret k es ts)
      fun ρ => (Γ.rename ρ).inferArgs name ret k (Expr.renameAll ρ es) ts := by
  induction es generalizing k ts with
  | nil =>
    simp only [Expr.renameAll, inferArgs]
    exact ⟨.good rfl fun _ => rfl, fun _ => rfl⟩
  | cons e es ih =>
    cases ts with
    | nil =>
      simp only [Expr.renameAll, inferArgs]
      exact ⟨.good rfl fun _ => rfl, fun _ => rfl⟩
    | cons t ts =>
      have he := h e List.mem_cons_self
      have hes := @ih (k + 1) ts fun a ha => h a (List.mem_cons_of_mem e ha)
      simp only [Expr.renameAll, inferArgs]
      refine he.andThen (fun _ _ => rfl) fun found => ?_
      by_cases hfound : found = t
      · simp only [if_pos hfound]
        refine ⟨hes.result, fun ρ => ?_⟩
        rw [he.node ρ, hes.node ρ, Expr.renameAll]
      · simp only [if_neg hfound]
        refine ⟨.same rfl rfl fun _ => rfl, fun ρ => ?_⟩
        rw [he.node ρ, Expr.renameAll]

theorem checkCall_follows (name : String) {args : List Expr}
    (h : ∀ a ∈ args, Γ.InferFollows P a) :
    Visit.Follows P Expr.renameAll (Γ.checkCall name args)
      fun ρ => (Γ.rename ρ).checkCall name (Expr.renameAll ρ args) := by
  have hcallee : ∀ ρ : Renaming, (Γ.rename ρ).callee name (Expr.renameAll ρ args).length =
      Γ.callee name args.length := by
    intro ρ
    rw [callee, callee, signatures_rename, Expr.length_renameAll]
  simp only [checkCall, hcallee]
  exact .guarded nameless_callee (fun _ => rfl) fun sig => inferArgs_follows h

/-- **Inference follows renamings.** Only at a variable is a name looked at, and only after the
variable was not found by its identity. -/
theorem infer_follows {e : Expr} (h : ∀ n ∈ e.nodes, ∀ x, n.reads? = some x → P x) :
    Γ.InferFollows P e := by
  induction e using Expr.induction_children with
  | step e ih =>
    have hchild : ∀ a ∈ e.children, Γ.InferFollows P a :=
      fun a ha => ih a ha fun n hn => h n (Expr.mem_nodes_of_child ha hn)
    cases e with
    | const s c =>
      simp only [InferFollows, Expr.rename, infer]
      exact .settle (.good rfl fun _ => rfl) fun _ => rfl
    | var s x =>
      -- the one node whose name can come into an error
      have hx : P x := h (.var s x) (Expr.mem_nodes_self _) x rfl
      simp only [InferFollows, Expr.rename, infer]
      exact .settle (typeOf_traced hx) fun _ => rfl
    | binary s op l r =>
      have hl := hchild l (by simp [Expr.children])
      have hr := hchild r (by simp [Expr.children])
      simp only [InferFollows, Expr.rename, infer]
      refine hl.andThen (fun _ _ => rfl) fun lt => ?_
      refine hr.andThen (fun ρ _ => by rw [hl.node ρ, Expr.rename]) fun rt => ?_
      exact .settle (.of_nameless nameless_apply) fun ρ => by
        rw [hl.node ρ, hr.node ρ, Expr.rename]
    | not s a =>
      have ha := hchild a (by simp [Expr.children])
      simp only [InferFollows, Expr.rename, infer]
      refine ha.andThen (fun _ _ => rfl) fun t => ?_
      exact .settle (.of_nameless nameless_negate) fun ρ => by rw [ha.node ρ, Expr.rename]
    | get s a f =>
      have ha := hchild a (by simp [Expr.children])
      simp only [InferFollows, Expr.rename, infer]
      refine ha.andThen (fun _ _ => rfl) fun t => ?_
      exact .settle (.of_nameless (nameless_elementAt.map _)) fun ρ => by
        rw [ha.node ρ, Expr.rename]
    | set s a f v =>
      have ha := hchild a (by simp [Expr.children])
      have hv := hchild v (by simp [Expr.children])
      simp only [InferFollows, Expr.rename, infer]
      refine ha.andThen (fun _ _ => rfl) fun t => ?_
      refine .guarded nameless_elementAt (fun ρ => by rw [ha.node ρ, Expr.rename])
        fun element => ?_
      refine hv.andThen (fun ρ _ => by rw [ha.node ρ, Expr.rename]) fun found => ?_
      exact .settle (.of_nameless (nameless_expect.map _)) fun ρ => by
        rw [ha.node ρ, hv.node ρ, Expr.rename]
    | deref s p =>
      have hp := hchild p (by simp [Expr.children])
      simp only [InferFollows, Expr.rename, infer]
      refine hp.andThen (fun _ _ => rfl) fun t => ?_
      exact .settle (.of_nameless nameless_target) fun ρ => by rw [hp.node ρ, Expr.rename]
    | call s name args =>
      have hargs : ∀ a ∈ args, Γ.InferFollows P a := hchild
      have hcall := checkCall_follows name hargs
      simp only [InferFollows, Expr.rename, infer_call]
      refine hcall.andThen (fun _ _ => rfl) fun ret => ?_
      exact .settle (.of_nameless nameless_asValue) fun ρ => by
        rw [hcall.node ρ, Expr.rename]

/-! ## Statements -/

theorem checkCondition_follows {condition : Expr} (h : Γ.InferFollows P condition) :
    Visit.Follows P Expr.rename (Γ.checkCondition condition)
      fun ρ => (Γ.rename ρ).checkCondition (condition.rename ρ) := by
  simp only [checkCondition]
  exact h.andThen (fun _ _ => rfl) fun t => ⟨.of_nameless (nameless_ite rfl), h.node⟩

theorem checkReturn_follows {value : Option Expr} (h : ∀ a ∈ value, Γ.InferFollows P a) :
    Visit.Follows P (fun ρ => Option.map (Expr.rename ρ)) (Γ.checkReturn value)
      fun ρ => (Γ.rename ρ).checkReturn (value.map (Expr.rename ρ)) := by
  cases hret : Γ.returns with
  | void =>
    cases value with
    | none =>
      simp only [checkReturn, returns_rename, hret, Option.map_none]
      exact ⟨.good rfl fun _ => rfl, fun _ => rfl⟩
    | some a =>
      simp only [checkReturn, returns_rename, hret, Option.map_some]
      exact ⟨.same rfl rfl fun _ => rfl, fun _ => rfl⟩
  | value expected =>
    cases value with
    | none =>
      simp only [checkReturn, returns_rename, hret, Option.map_none]
      exact ⟨.same rfl rfl fun _ => rfl, fun _ => rfl⟩
    | some a =>
      have ha := h a rfl
      simp only [checkReturn, returns_rename, hret, Option.map_some]
      refine ha.andThen (fun _ _ => rfl) fun found => ?_
      exact ⟨.of_nameless (nameless_ite rfl), fun ρ => congrArg some (ha.node ρ)⟩

theorem checkAssign_follows {x : Symbol} {value : Expr} (hx : P x) (h : Γ.InferFollows P value) :
    Visit.Follows P Expr.rename (Γ.checkAssign x value)
      fun ρ => (Γ.rename ρ).checkAssign (ρ.symbol x) (value.rename ρ) := by
  simp only [checkAssign]
  refine h.andThen (fun _ _ => rfl) fun found => ⟨?_, h.node⟩
  exact (typeOf_traced hx).bind fun expected => .of_nameless nameless_expect

/-- A variable that is declared already is named, under every renaming. -/
theorem declaring_follows {x : Symbol} {α : Type} {renameα : Renaming → α → α} {node : α}
    {N : Renaming → α} {r : Except TypeError Unit} {R : Renaming → Except TypeError Unit} (hx : P x)
    (hr : Traced P r R) (hn : ∀ ρ, N ρ = renameα ρ node) :
    Visit.Follows P renameα (.guarded (Γ.declare x) node fun _ => ⟨r, node, []⟩) fun ρ =>
      .guarded ((Γ.rename ρ).declare (ρ.symbol x)) (N ρ) fun _ => ⟨R ρ, N ρ, []⟩ := by
  by_cases hd : Γ.Declares x
  · have hρ : ∀ ρ : Renaming,
        (Γ.rename ρ).declare (ρ.symbol x) = .error (.redeclared (ρ.name x)) :=
      fun ρ => declare_of_declares (declares_rename.mpr hd)
    simp only [declare_of_declares hd, hρ, Visit.guarded_error]
    exact ⟨.named (e := .redeclared x.name) rfl hx rfl fun _ => rfl, hn⟩
  · have hρ : ∀ ρ : Renaming,
        (Γ.rename ρ).declare (ρ.symbol x) = .ok ((Γ.rename ρ).add (ρ.symbol x)) :=
      fun ρ => declare_of_not_declares fun hc => hd (declares_rename.mp hc)
    simp only [declare_of_not_declares hd, hρ, Visit.guarded_ok]
    exact ⟨hr, hn⟩

theorem checkDefine_follows {x : Symbol} {value : Option Expr} (hx : P x)
    (h : ∀ a ∈ value, Γ.InferFollows P a) :
    Visit.Follows P (fun ρ => Option.map (Expr.rename ρ)) (Γ.checkDefine x value).toVisit
      fun ρ => ((Γ.rename ρ).checkDefine (ρ.symbol x) (value.map (Expr.rename ρ))).toVisit := by
  cases value with
  | none =>
    simp only [Option.map_none, toVisit_checkDefine_none]
    exact declaring_follows hx (.good rfl fun _ => rfl) fun _ => rfl
  | some a =>
    have ha := h a rfl
    simp only [Option.map_some, toVisit_checkDefine_some]
    refine ha.andThen (fun _ _ => rfl) fun found => ?_
    exact declaring_follows hx (.of_nameless nameless_expect)
      fun ρ => congrArg some (ha.node ρ)

/-- Statements follow renamings when the blocks inside do. -/
theorem checkStmt_follows {s : Stmt} (h : ∀ x, s.Mentions x → P x)
    (hb : ∀ b ∈ s.blocks, Visit.Follows P Block.rename (Γ.checkBlock b).toVisit
      fun ρ => ((Γ.rename ρ).checkBlock (Block.rename ρ b)).toVisit) :
    Visit.Follows P Stmt.rename (Γ.checkStmt s).toVisit
      fun ρ => ((Γ.rename ρ).checkStmt (s.rename ρ)).toVisit := by
  have hinfer : ∀ a ∈ s.exprs, Γ.InferFollows P a :=
    fun a ha => infer_follows fun n hn x hx => h x (Or.inr (Or.inr ⟨a, ha, n, hn, hx⟩))
  cases s with
  | define x value =>
    have hvisit := checkDefine_follows (h x (Or.inl rfl))
      fun a ha => hinfer a (Option.mem_toList.mpr ha)
    simp only [Stmt.rename, checkStmt]
    exact ⟨hvisit.result, fun ρ => congrArg (Stmt.define (ρ.symbol x)) (hvisit.node ρ)⟩
  | assign x value =>
    have hvisit := checkAssign_follows (h x (Or.inr (Or.inl rfl)))
      (hinfer value List.mem_cons_self)
    simp only [Stmt.rename, checkStmt]
    exact ⟨hvisit.result, fun ρ => congrArg (Stmt.assign (ρ.symbol x)) (hvisit.node ρ)⟩
  | ret value =>
    have hvisit := checkReturn_follows fun a ha => hinfer a (Option.mem_toList.mpr ha)
    simp only [Stmt.rename, checkStmt]
    exact ⟨hvisit.result, fun ρ => congrArg Stmt.ret (hvisit.node ρ)⟩
  | branch condition thenBlock elseBlock =>
    have hc := checkCondition_follows (hinfer condition List.mem_cons_self)
    have ht := hb thenBlock (by simp [Stmt.blocks])
    have he := hb elseBlock (by simp [Stmt.blocks])
    simp only [Stmt.rename, checkStmt]
    refine Visit.Follows.entering (hc.andThen (fun _ _ => rfl) fun _ => ?_) _
    refine ht.andThen (fun ρ _ => by rw [hc.node ρ, Stmt.rename]) fun _ => ?_
    refine ⟨he.result, fun ρ => ?_⟩
    simp only [hc.node ρ, ht.node ρ, he.node ρ, Stmt.rename]
  | loop condition body =>
    have hc := checkCondition_follows (hinfer condition List.mem_cons_self)
    have hbody := hb body (by simp [Stmt.blocks])
    simp only [Stmt.rename, checkStmt]
    refine Visit.Follows.entering (hc.andThen (fun _ _ => rfl) fun _ => ?_) _
    refine ⟨hbody.result, fun ρ => ?_⟩
    simp only [hc.node ρ, hbody.node ρ, Stmt.rename]
  | call name args =>
    have hargs : ∀ a ∈ args, Γ.InferFollows P a := hinfer
    have hcall := checkCall_follows name hargs
    simp only [Stmt.rename, checkStmt]
    exact ⟨hcall.result.map _, fun ρ => congrArg (Stmt.call name) (hcall.node ρ)⟩

/-! ## Blocks and functions -/

theorem checkBlock_follows {block : Block}
    (h : ∀ s ∈ Block.stmts block, ∀ x, s.Mentions x → P x) :
    Visit.Follows P Block.rename (Γ.checkBlock block).toVisit
      fun ρ => ((Γ.rename ρ).checkBlock (Block.rename ρ block)).toVisit := by
  induction block using Block.induction_blocks generalizing Γ with
  | step block inner =>
    induction block generalizing Γ with
    | nil =>
      simp only [Block.rename, checkBlock]
      exact ⟨.good rfl fun _ => rfl, fun _ => rfl⟩
    | cons s ss ih =>
      have hhead : ∀ r ∈ s.stmts, ∀ x, r.Mentions x → P x :=
        fun r hr => h r (List.mem_append_left _ hr)
      have htail : ∀ r ∈ Block.stmts ss, ∀ x, r.Mentions x → P x :=
        fun r hr => h r (List.mem_append_right _ hr)
      have hs := checkStmt_follows (Γ := Γ) (hhead s (Stmt.mem_stmts.mpr (Or.inl rfl)))
        fun b hb => inner s List.mem_cons_self b hb
          fun r hr => hhead r (Stmt.mem_stmts.mpr (Or.inr ⟨b, hb, hr⟩))
      have hss := ih (Γ := Γ.addAll s.defines?.toList)
        (fun r hr => inner r (List.mem_cons_of_mem s hr)) htail
      -- behind the renamed statement the renamed variable is known in addition
      have hcontext : ∀ ρ : Renaming, (Γ.rename ρ).addAll (s.rename ρ).defines?.toList =
          (Γ.addAll s.defines?.toList).rename ρ := by
        intro ρ
        rw [Stmt.defines?_rename, Option.toList_map, addAll_rename]
      simp only [Block.rename, toVisit_checkBlock_cons, hcontext]
      refine hs.andThen (fun _ _ => rfl) fun _ => ⟨hss.result, fun ρ => ?_⟩
      simp only [hs.node ρ, hss.node ρ, Block.rename]

/-- Parameters are declared under all renamings, or refused because of one and the same. -/
theorem declareParams_rename (params : List Symbol) :
    (Γ.declareParams params = .ok (Γ.addAll params) ∧ ∀ ρ : Renaming,
      (Γ.rename ρ).declareParams (params.map ρ.symbol) = .ok ((Γ.addAll params).rename ρ)) ∨
    ∃ x ∈ params, Γ.declareParams params = .error (.duplicateParameter x.name) ∧
      ∀ ρ : Renaming, (Γ.rename ρ).declareParams (params.map ρ.symbol) =
        .error (.duplicateParameter (ρ.name x)) := by
  induction params generalizing Γ with
  | nil => exact Or.inl ⟨rfl, fun _ => rfl⟩
  | cons x xs ih =>
    -- the first parameter that is declared already is refused, and this is a matter of identities
    by_cases hx : Γ.Declares x
    · refine Or.inr ⟨x, List.mem_cons_self, ?_, fun ρ => ?_⟩
      · exact declareParams_cons_of_declares hx
      · rw [List.map_cons, declareParams_cons_of_declares (declares_rename.mpr hx)]
        rfl
    · have hfirst : ∀ ρ : Renaming, (Γ.rename ρ).declareParams ((x :: xs).map ρ.symbol) =
          ((Γ.add x).rename ρ).declareParams (xs.map ρ.symbol) := by
        intro ρ
        have hx' : ¬ (Γ.rename ρ).Declares (ρ.symbol x) := fun hc => hx (declares_rename.mp hc)
        rw [List.map_cons, declareParams_cons_of_not_declares hx', add_rename]
      rw [declareParams_cons_of_not_declares hx]
      simp only [hfirst, addAll_cons]
      rcases ih (Γ := Γ.add x) with h | ⟨y, hy, h⟩
      · exact Or.inl h
      · exact Or.inr ⟨y, List.mem_cons_of_mem x hy, h⟩

/-- The variable is a parameter or is mentioned in the body, at any depth. -/
def OccursIn (params : List Symbol) (body : Block) (x : Symbol) : Prop :=
  x ∈ params ∨ ∃ s ∈ Block.stmts body, s.Mentions x

/-- **Checking a function follows renamings.** -/
theorem checkFunction_follows (params : List Symbol) (body : Block) :
    Visit.Follows (OccursIn params body) Block.rename (Γ.checkFunction params body)
      fun ρ => (Γ.rename ρ).checkFunction (params.map ρ.symbol) (Block.rename ρ body) := by
  rcases declareParams_rename (Γ := Γ) params with ⟨hok, hokρ⟩ | ⟨x, hx, herr, herrρ⟩
  · have hmentions : ∀ s ∈ Block.stmts body, ∀ x, s.Mentions x → OccursIn params body x :=
      fun s hs x hx => Or.inr ⟨s, hs, hx⟩
    have hbody := checkBlock_follows (Γ := Γ.addAll params) hmentions
    simp only [checkFunction, hok, hokρ, Visit.guarded_ok, List.length_map]
    refine Visit.Follows.entering (hbody.andThen (fun _ _ => rfl) fun _ => ?_) _
    exact ⟨.good rfl fun _ => rfl, hbody.node⟩
  · simp only [checkFunction, herr, herrρ, Visit.guarded_error]
    exact ⟨.named (e := .duplicateParameter x.name) rfl (Or.inl hx) rfl fun _ => rfl, fun _ => rfl⟩

/--
**Only identities count.**

However the variables of a function, its parameters and its context are renamed, one-to-one on
identities, the function is accepted exactly when it was, and every node of its body has the same
type recorded. An error that names no variable stays as it is. An error that names a variable of the
function names this variable by its new name instead.
-/
theorem checkFunction_rename (Γ : Context) (params : List Symbol) (body : Block) :
    (∀ ρ : Renaming,
      (((Γ.rename ρ).checkFunction (params.map ρ.symbol) (Block.rename ρ body)).result = .ok () ↔
        (Γ.checkFunction params body).result = .ok ()) ∧
      ((Γ.rename ρ).checkFunction (params.map ρ.symbol) (Block.rename ρ body)).node =
        Block.rename ρ (Γ.checkFunction params body).node ∧
      Block.slots ((Γ.rename ρ).checkFunction (params.map ρ.symbol) (Block.rename ρ body)).node =
        Block.slots (Γ.checkFunction params body).node) ∧
    ∀ e, (Γ.checkFunction params body).result = .error e →
      (e.namesVariable = false → ∀ ρ : Renaming,
        ((Γ.rename ρ).checkFunction (params.map ρ.symbol) (Block.rename ρ body)).result =
          .error e) ∧
      (e.namesVariable = true →
        ∃ x, OccursIn params body x ∧ e = e.naming x.name ∧
          ∀ ρ : Renaming,
            ((Γ.rename ρ).checkFunction (params.map ρ.symbol) (Block.rename ρ body)).result =
              .error (e.naming (ρ.name x))) := by
  have hfollows := checkFunction_follows (Γ := Γ) params body
  constructor
  · intro ρ
    refine ⟨hfollows.result.ok_iff ρ, hfollows.node ρ, ?_⟩
    rw [hfollows.node ρ, Block.slots_rename]
  · intro e he
    exact hfollows.result.error he

/-- Three variables of one name: a parameter, one that is introduced, and one that is assigned
without being declared. -/
def namesakes : Block :=
  [.define ⟨⟨1⟩, "x", .bool⟩ none, .assign ⟨⟨2⟩, "x", .bool⟩ (.var none ⟨⟨0⟩, "x", .bool⟩)]

/-- Identities move on by one, and the variable with the identity 2 alone is called `lost`. -/
def apart : Renaming where
  id := fun i => ⟨i.number + 1⟩
  name := fun x => if x.id = ⟨2⟩ then "lost" else "kept"
  injective := by
    intro i j h
    cases i
    cases j
    simpa using h

/-- The error about an `x` is about the third of them. -/
theorem namesakes_rename :
    let param : Symbol := ⟨⟨0⟩, "x", .bool⟩
    let e : TypeError := .undeclaredVariable "x"
    (checkFunction {} [param] namesakes).result = .error e ∧
      (∃ x, OccursIn [param] namesakes x ∧ e = e.naming x.name ∧
        ∀ ρ : Renaming,
          ((rename ρ {}).checkFunction ([param].map ρ.symbol) (Block.rename ρ namesakes)).result =
            .error (e.naming (ρ.name x))) ∧
      ((rename apart {}).checkFunction ([param].map apart.symbol)
        (Block.rename apart namesakes)).result = .error (.undeclaredVariable "lost") := by
  intro param e
  exact ⟨rfl, ((checkFunction_rename {} [param] namesakes).2 e rfl).2 rfl, rfl⟩

end Context

end BlockLang
