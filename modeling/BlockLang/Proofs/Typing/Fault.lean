import BlockLang.Proofs.Slots.Recorded
import BlockLang.Proofs.Ty.Resolution

/-!
# Faults

A fault says of one node or one statement what is wrong with it, and which error describes that. The
parts are taken by their types (`Context.HasType`), so a fault is stated without the checker:

* `CallFault` — a call, whether it stands as a statement or as an expression;
* `ExprFault` — a node of an expression whose children all have types;
* `StmtFault` — a statement, apart from its expressions and the blocks inside it.

Every error that inference finds is the fault of a node (`exists_fault_of_infer_error`), and every
error of the head of a statement is its own fault or that of a node in it
(`headVerdict_error_fault`).

`infer_error_step` says all about one failing node: in which child the visit stopped or that the
node is at fault, which children had been visited by then, what is left of the node and what was
reported. `headVerdict_error_step` says the same of the head of a statement and its expressions.
-/

namespace BlockLang

/-- A visit that goes on in silence reports what was reported before. -/
theorem Visit.log_andThen_of_silent {ρ σ α β : Type} {v : Visit ρ α} {stopped : α → β}
    {next : ρ → Visit σ β} (h : ∀ a, (next a).log = []) :
    (v.andThen stopped next).log = v.log := by
  cases hr : v.result with
  | error e => rw [andThen_error hr]
  | ok a => rw [andThen_ok hr, h a, List.append_nil]

/-- How many arguments of a call have been visited when the call is at fault itself. The function is
looked up and the arguments are counted before any of them is visited. -/
def TypeError.argumentsSeen : TypeError → Nat
  | .argumentMismatch _ position _ _ => position + 1
  | _ => 0

/-- How many children of a node have been visited when the node is at fault itself. In a replacement
the selector is resolved between the aggregate and the value. -/
def Expr.childrenSeen : Expr → TypeError → Nat
  | .set _ _ _ _, .mismatch _ _ => 2
  | .set _ _ _ _, _ => 1
  | .call _ _ args, .voidAsValue _ => args.length
  | .call _ _ _, err => err.argumentsSeen
  | e, _ => e.children.length

/-- How many expressions of a statement have been visited when the statement is at fault itself. A
value is not visited where nothing is to be given back. -/
def Stmt.exprsSeen : Stmt → TypeError → Nat
  | .ret _, .valueFromVoid => 0
  | .call _ _, err => err.argumentsSeen
  | s, _ => s.exprs.length

namespace Context

/-! ## The faults -/

/-- The call is wrong in the way that the error describes. -/
inductive CallFault (Γ : Context) (name : String) (args : List Expr) : TypeError → Prop
  | unknown : Γ.signatures.find? name = none → CallFault Γ name args (.undeclaredFunction name)
  | arity {sig : Signature} :
      Γ.signatures.find? name = some sig → sig.params.length ≠ args.length →
      CallFault Γ name args (.arityMismatch name sig.params.length args.length)
  | argument {sig : Signature} {i : Nat} {a : Expr} {expected found : Ty} :
      Γ.signatures.find? name = some sig → sig.params.length = args.length →
      args[i]? = some a → sig.params[i]? = some expected →
      Γ.HasType a found → found ≠ expected →
      CallFault Γ name args (.argumentMismatch name i expected found)

/-- The node is wrong in the way that the error describes, and nothing below it is. -/
inductive ExprFault (Γ : Context) : Expr → TypeError → Prop
  | undeclared {s : Option Ty} {x : Symbol} :
      ¬ Γ.Declares x → ExprFault Γ (.var s x) (.undeclaredVariable x.name)
  | operands {s : Option Ty} {op : BinaryOp} {l r : Expr} {left right : Ty} :
      Γ.HasType l left → Γ.HasType r right → (∀ t, ¬ op.family.Joins left right t) →
      ExprFault Γ (.binary s op l r) (.incompatibleTypes op left right)
  | operand {s : Option Ty} {a : Expr} {t : Ty} :
      Γ.HasType a t → t ≠ .bool → ExprFault Γ (.not s a) (.incompatibleOperand t)
  | readElement {s : Option Ty} {a : Expr} {f : Selector} {t : Ty} {e : TypeError} :
      Γ.HasType a t → t.Lacks f e → ExprFault Γ (.get s a f) e
  | replacedElement {s : Option Ty} {a v : Expr} {f : Selector} {t : Ty} {e : TypeError} :
      Γ.HasType a t → t.Lacks f e → ExprFault Γ (.set s a f v) e
  | replacement {s : Option Ty} {a v : Expr} {f : Selector} {t expected found : Ty} {i : Nat} :
      Γ.HasType a t → t.Selects f i expected → Γ.HasType v found → found ≠ expected →
      ExprFault Γ (.set s a f v) (.mismatch expected found)
  | target {s : Option Ty} {p : Expr} {t : Ty} :
      Γ.HasType p t → (∀ u, t ≠ .pointer u) → ExprFault Γ (.deref s p) (.notPointer t)
  | noValue {s : Option Ty} {name : String} {args : List Expr} {params : List Ty} :
      Γ.signatures.find? name = some ⟨params, .void⟩ → Γ.HaveTypes args params →
      ExprFault Γ (.call s name args) (.voidAsValue name)
  | call {s : Option Ty} {name : String} {args : List Expr} {e : TypeError} :
      Γ.CallFault name args e → ExprFault Γ (.call s name args) e

/-- The statement is wrong in the way that the error describes, its expressions and the blocks
inside it apart. -/
inductive StmtFault (Γ : Context) : Stmt → TypeError → Prop
  | redeclared {x : Symbol} {value : Option Expr} :
      Γ.Declares x → StmtFault Γ (.define x value) (.redeclared x.name)
  | initial {x : Symbol} {a : Expr} {found : Ty} :
      Γ.HasType a found → found ≠ x.ty →
      StmtFault Γ (.define x (some a)) (.mismatch x.ty found)
  | undeclared {x : Symbol} {a : Expr} :
      ¬ Γ.Declares x → StmtFault Γ (.assign x a) (.undeclaredVariable x.name)
  | assigned {x : Symbol} {a : Expr} {found : Ty} :
      Γ.HasType a found → found ≠ x.ty → StmtFault Γ (.assign x a) (.mismatch x.ty found)
  | valueFromVoid {a : Expr} : Γ.returns = .void → StmtFault Γ (.ret (some a)) .valueFromVoid
  | missingValue {expected : Ty} :
      Γ.returns = .value expected → StmtFault Γ (.ret none) (.missingValue expected)
  | returned {a : Expr} {expected found : Ty} :
      Γ.returns = .value expected → Γ.HasType a found → found ≠ expected →
      StmtFault Γ (.ret (some a)) (.returnMismatch expected found)
  | branch {condition : Expr} {thenBlock elseBlock : Block} {found : Ty} :
      Γ.HasType condition found → found ≠ .bool →
      StmtFault Γ (.branch condition thenBlock elseBlock) (.conditionNotBool found)
  | loop {condition : Expr} {body : Block} {found : Ty} :
      Γ.HasType condition found → found ≠ .bool →
      StmtFault Γ (.loop condition body) (.conditionNotBool found)
  | call {name : String} {args : List Expr} {e : TypeError} :
      Γ.CallFault name args e → StmtFault Γ (.call name args) e

variable {Γ : Context} {err : TypeError}

/-! ## Where a visit stops -/

/-- The expressions once the first `count` of them have been visited. -/
def visitFirst (Γ : Context) (count : Nat) (es : List Expr) : List Expr :=
  (es.take count).map (fun a => (Γ.infer a).node) ++ es.drop count

/-- What is reported while the first `count` expressions are visited. -/
def logFirst (Γ : Context) (count : Nat) (es : List Expr) : List Event :=
  (es.take count).flatMap fun a => (Γ.infer a).log

/-- The first `count` expressions have types. -/
def TypedFirst (Γ : Context) (count : Nat) (es : List Expr) : Prop :=
  ∀ a ∈ es.take count, ∃ t, (Γ.infer a).result = .ok t

/-- The `j`-th of the expressions is the first one that fails. -/
def StopsIn (Γ : Context) (es : List Expr) (j : Nat) (err : TypeError) : Prop :=
  Γ.TypedFirst j es ∧ ∃ a, es[j]? = some a ∧ (Γ.infer a).result = .error err

/-- The visit of the expressions has gone through the first `count` of them, and no further. -/
structure Covers (Γ : Context) {ρ : Type} (v : Visit ρ (List Expr)) (count : Nat)
    (es : List Expr) : Prop where
  node : v.node = Γ.visitFirst count es
  log : v.log = Γ.logFirst count es

/-- What is left of a failing node, and what was reported: its slot is as it was, over its first
`count` children as inference leaves them and the others as they were. The events are those of the
children that were visited. -/
structure LeftAfter (Γ : Context) (e : Expr) (count : Nat) : Prop where
  slot : (Γ.infer e).node.slot = e.slot
  children : (Γ.infer e).node.children = Γ.visitFirst count e.children
  log : (Γ.infer e).log = Γ.logFirst count e.children

section Stopping

variable {a : Expr} {es : List Expr} {n j : Nat}

theorem typedFirst_zero : Γ.TypedFirst 0 es := by
  intro a ha
  cases ha

theorem typedFirst_cons {t : Ty} (ha : (Γ.infer a).result = .ok t) (h : Γ.TypedFirst n es) :
    Γ.TypedFirst (n + 1) (a :: es) := by
  intro b hb
  rcases List.mem_cons.mp hb with rfl | hb
  · exact ⟨t, ha⟩
  · exact h b hb

theorem exists_infer_of_typedFirst (h : Γ.TypedFirst n es) (hj : j < n) (ha : es[j]? = some a) :
    ∃ t, (Γ.infer a).result = .ok t := by
  refine h a (List.mem_iff_getElem?.mpr ⟨j, ?_⟩)
  rw [List.getElem?_take_of_lt hj]
  exact ha

theorem stopsIn_head (ha : (Γ.infer a).result = .error err) : Γ.StopsIn (a :: es) 0 err :=
  ⟨typedFirst_zero, a, rfl, ha⟩

theorem StopsIn.cons {t : Ty} (h : Γ.StopsIn es j err) (ha : (Γ.infer a).result = .ok t) :
    Γ.StopsIn (a :: es) (j + 1) err :=
  ⟨typedFirst_cons ha h.1, h.2⟩

theorem StopsIn.exists_mem (h : Γ.StopsIn es j err) :
    ∃ a ∈ es, (Γ.infer a).result = .error err := by
  obtain ⟨-, a, ha, he⟩ := h
  exact ⟨a, List.mem_of_getElem? ha, he⟩

@[simp] theorem logFirst_zero : Γ.logFirst 0 es = [] := rfl

@[simp] theorem logFirst_nil : Γ.logFirst n [] = [] := by
  rw [logFirst, List.take_nil, List.flatMap_nil]

@[simp] theorem logFirst_cons :
    Γ.logFirst (n + 1) (a :: es) = (Γ.infer a).log ++ Γ.logFirst n es := rfl

theorem Covers.cons {ρ σ : Type} {v : Visit ρ (List Expr)} (h : Γ.Covers v n es)
    (result : Except TypeError σ) :
    Γ.Covers ⟨result, (Γ.infer a).node :: v.node, (Γ.infer a).log ++ v.log⟩ (n + 1) (a :: es) where
  node := congrArg (List.cons (Γ.infer a).node) h.node
  log := congrArg ((Γ.infer a).log ++ ·) h.log

theorem leftAfter_of_eq {e left : Expr} {result : Except TypeError Ty} {log : List Event}
    (h : Γ.infer e = ⟨result, left, log⟩) (hslot : left.slot = e.slot)
    (hchildren : left.children = Γ.visitFirst n e.children)
    (hlog : log = Γ.logFirst n e.children) : Γ.LeftAfter e n where
  slot := by rw [h]; exact hslot
  children := by rw [h]; exact hchildren
  log := by rw [h]; exact hlog

theorem typedFirst_of_haveTypes {ts : List Ty} (h : Γ.HaveTypes es ts) :
    Γ.TypedFirst es.length es := by
  intro a ha
  obtain ⟨t, ht⟩ := exists_hasType_of_mem h a (List.mem_of_mem_take ha)
  exact ⟨t, infer_eq_ok_iff.mpr ht⟩

theorem visitFirst_length (es : List Expr) :
    Γ.visitFirst es.length es = es.map fun a => (Γ.infer a).node := by
  rw [visitFirst, List.take_length, List.drop_length, List.append_nil]

end Stopping

/-! ## Calls -/

/-- The argument at the position, if there is one, has the type of its parameter. -/
def FitsAt (Γ : Context) (args : List Expr) (params : List Ty) (i : Nat) : Prop :=
  ∀ a expected, args[i]? = some a → params[i]? = some expected → (Γ.infer a).result = .ok expected

theorem callee_error_fault {name : String} {args : List Expr}
    (h : Γ.callee name args.length = .error err) :
    Γ.CallFault name args err ∧ err.argumentsSeen = 0 := by
  rw [callee] at h
  cases hf : Γ.signatures.find? name with
  | none =>
    rw [hf] at h
    cases h
    exact ⟨.unknown hf, rfl⟩
  | some sig =>
    rw [hf] at h
    by_cases hlen : sig.params.length = args.length
    · simp only [if_pos hlen] at h
      cases h
    · simp only [if_neg hlen] at h
      cases h
      exact ⟨.arity hf hlen, rfl⟩

/-- A call whose first `j` arguments fit is not at fault before the next one has been visited. -/
theorem CallFault.lt_argumentsSeen {name : String} {args : List Expr} {sig : Signature} {j : Nat}
    (h : Γ.CallFault name args err) (hf : Γ.signatures.find? name = some sig)
    (hlen : sig.params.length = args.length) (hfits : ∀ i < j, Γ.FitsAt args sig.params i) :
    j < err.argumentsSeen := by
  cases h with
  | unknown hnone =>
    rw [hf] at hnone
    cases hnone
  | arity hf' hne =>
    rw [hf] at hf'
    cases hf'
    exact absurd hlen hne
  | @argument sig' i a expected found hf' _ ha ht hty hne =>
    rw [hf] at hf'
    cases hf'
    show j < i + 1
    by_contra hlt
    have hok := hfits i (by omega) a expected ha ht
    exact hne (hty.unique (infer_eq_ok_iff.mp hok))

/-- Arguments fail in one of them, or because one of them has another type than its parameter. The
positions are counted from `k`. -/
theorem inferArgs_error_step {name : String} {ret : ReturnTy} {k : Nat} {es : List Expr}
    {ts : List Ty} (h : (Γ.inferArgs name ret k es ts).result = .error err) :
    (∃ j, Γ.StopsIn es j err ∧ (∀ i < j, Γ.FitsAt es ts i) ∧
        Γ.Covers (Γ.inferArgs name ret k es ts) (j + 1) es) ∨
      ∃ (i : Nat) (a : Expr) (expected found : Ty), es[i]? = some a ∧ ts[i]? = some expected ∧
        Γ.HasType a found ∧ found ≠ expected ∧
        err = .argumentMismatch name (k + i) expected found ∧
        Γ.TypedFirst (i + 1) es ∧ Γ.Covers (Γ.inferArgs name ret k es ts) (i + 1) es := by
  induction es generalizing k ts with
  | nil => rw [inferArgs_nil] at h; cases h
  | cons e es ih =>
    cases ts with
    | nil => rw [inferArgs] at h; cases h
    | cons t ts =>
      rw [inferArgs] at h ⊢
      rcases Visit.andThen_eq_error_iff.mp h with he | ⟨found, hf, he⟩
      · rw [Visit.andThen_error he]
        exact Or.inl ⟨0, stopsIn_head he, nofun, rfl, by simp⟩
      · rw [Visit.andThen_ok hf]
        by_cases hc : found = t
        · -- the positions of the rest are counted from `k + 1`
          rw [if_pos hc] at he ⊢
          rcases ih he with
            ⟨j, hj, hfits, hcovers⟩ | ⟨i, a, expected, found', ha, ht, hty, hne, rfl, hi, hcovers⟩
          · refine Or.inl ⟨j + 1, hj.cons hf, fun i hi => ?_, hcovers.cons _⟩
            cases i with
            | zero =>
              rintro a expected ⟨⟩ ⟨⟩
              rw [hf, hc]
            | succ i => exact hfits i (Nat.lt_of_succ_lt_succ hi)
          · refine Or.inr ⟨i + 1, a, expected, found', ?_, ?_, hty, hne, ?_, ?_, hcovers.cons _⟩
            · rw [List.getElem?_cons_succ]
              exact ha
            · rw [List.getElem?_cons_succ]
              exact ht
            · rw [Nat.add_assoc, Nat.add_comm 1 i]
            · exact typedFirst_cons hf hi
        · rw [if_neg hc] at he ⊢
          cases he
          exact Or.inr ⟨0, e, t, found, rfl, rfl, infer_eq_ok_iff.mp hf, hc, rfl,
            typedFirst_cons hf typedFirst_zero, rfl, by simp⟩

/-- **A call fails in one of its arguments, or is at fault itself.** Either way the arguments behind
are as they were, and nothing is reported of them. -/
theorem checkCall_error_step {name : String} {args : List Expr}
    (h : (Γ.checkCall name args).result = .error err) :
    (∃ j, Γ.StopsIn args j err ∧ (∀ err', Γ.CallFault name args err' → j < err'.argumentsSeen) ∧
        Γ.Covers (Γ.checkCall name args) (j + 1) args) ∨
      Γ.CallFault name args err ∧ Γ.TypedFirst err.argumentsSeen args ∧
        Γ.Covers (Γ.checkCall name args) err.argumentsSeen args := by
  rw [checkCall] at h ⊢
  rcases Visit.guarded_eq_error_iff.mp h with he | ⟨sig, hsig, he⟩
  · obtain ⟨hfault, hseen⟩ := callee_error_fault he
    rw [he, hseen]
    exact Or.inr ⟨hfault, typedFirst_zero, rfl, rfl⟩
  · obtain ⟨hf, hlen⟩ := callee_eq_ok_iff.mp hsig
    rw [hsig]
    rcases inferArgs_error_step he with
      ⟨j, hj, hfits, hcovers⟩ | ⟨i, a, expected, found, ha, ht, hty, hne, rfl, hi, hcovers⟩
    · exact Or.inl ⟨j, hj, fun _ hfault => hfault.lt_argumentsSeen hf hlen hfits, hcovers⟩
    · rw [Nat.zero_add]
      exact Or.inr ⟨.argument hf hlen ha ht hty hne, hi, hcovers⟩

theorem log_inferArgs_of_haveTypes {name : String} {ret : ReturnTy} {k : Nat} {es : List Expr}
    {ts : List Ty} (h : Γ.HaveTypes es ts) :
    (Γ.inferArgs name ret k es ts).log = Γ.logFirst es.length es := by
  induction es generalizing ts k with
  | nil => rw [inferArgs, logFirst_nil]
  | cons a as ih =>
    cases h with
    | cons ha hrest =>
      rw [inferArgs, Visit.andThen_ok (infer_of_hasType a ha), if_pos rfl, List.length_cons,
        logFirst_cons, ← ih hrest]

/-- An accepted call reports what its arguments do. -/
theorem log_checkCall_of_ok {name : String} {args : List Expr} {ret : ReturnTy}
    (h : (Γ.checkCall name args).result = .ok ret) :
    (Γ.checkCall name args).log = Γ.logFirst args.length args := by
  obtain ⟨params, hf, htypes⟩ := checkCall_eq_ok_iff.mp h
  have hcallee : Γ.callee name args.length = .ok ⟨params, ret⟩ :=
    callee_eq_ok_iff.mpr ⟨hf, htypes.length_eq.symm⟩
  rw [checkCall, hcallee, Visit.guarded_ok]
  exact log_inferArgs_of_haveTypes htypes

/-! ## Nodes -/

/-- A call as an expression is not at fault before the call is. -/
theorem ExprFault.lt_childrenSeen_call {s : Option Ty} {name : String} {args : List Expr} {j : Nat}
    (h : Γ.ExprFault (.call s name args) err) (hj : j < args.length)
    (hcall : ∀ err', Γ.CallFault name args err' → j < err'.argumentsSeen) :
    j < (Expr.call s name args).childrenSeen err := by
  cases h with
  | noValue _ _ => exact hj
  | call hfault =>
    have hseen : (Expr.call s name args).childrenSeen err = err.argumentsSeen := by
      cases hfault <;> rfl
    rw [hseen]
    exact hcall err hfault

/-- A replacement whose selector is resolved is not at fault before the value has been visited. -/
theorem ExprFault.lt_childrenSeen_set {s : Option Ty} {a v : Expr} {f : Selector} {t u : Ty}
    {i : Nat} (h : Γ.ExprFault (.set s a f v) err) (ha : Γ.HasType a t)
    (hsel : t.Selects f i u) : 1 < (Expr.set s a f v).childrenSeen err := by
  cases h with
  | replacedElement ha' hlacks =>
    rw [ha.unique ha'] at hsel
    exact absurd hsel hlacks.not_selects
  | replacement _ _ _ _ => exact Nat.one_lt_two

/-- A node with a single operand fails in the operand, or by the rule for its type. Either way the
operand has been visited. -/
theorem infer_error_of_operand {e a : Expr} {rebuild : Expr → Expr}
    {rule : Ty → Except TypeError Ty}
    (hvisit : Γ.infer e = (Γ.infer a).andThen rebuild fun t =>
      .settle (rule t) (rebuild (Γ.infer a).node))
    (hslot : ∀ a', (rebuild a').slot = e.slot) (hchildren : ∀ a', (rebuild a').children = [a'])
    (hchild : e.children = [a]) (h : (Γ.infer e).result = .error err) :
    Γ.LeftAfter e 1 ∧ ((Γ.infer a).result = .error err ∨
      ∃ t, (Γ.infer a).result = .ok t ∧ rule t = .error err) := by
  rw [hvisit, Visit.andThen_eq_error_iff] at h
  simp only [Visit.result_settle] at h
  have hleft : Γ.infer e = ⟨.error err, rebuild (Γ.infer a).node, (Γ.infer a).log⟩ := by
    rcases h with ha | ⟨t, ha, ht⟩
    · rw [hvisit, Visit.andThen_error ha]
    · rw [hvisit, Visit.andThen_ok ha, ht, Visit.settle_error, List.append_nil]
  refine ⟨leftAfter_of_eq hleft (hslot _) ?_ ?_, h⟩
  · rw [hchildren, hchild]
    rfl
  · rw [hchild, logFirst_cons, logFirst_nil, List.append_nil]

/--
**Inference stops in a child of the node, or the node is at fault.**

In both cases the children in front have types, and what is left of the node is described. A node in
whose child the visit stops is not at fault in a way that would have been noticed before.
-/
theorem infer_error_step {e : Expr} (h : (Γ.infer e).result = .error err) :
    (∃ j, Γ.StopsIn e.children j err ∧ (∀ err', Γ.ExprFault e err' → j < e.childrenSeen err') ∧
        Γ.LeftAfter e (j + 1)) ∨
      Γ.ExprFault e err ∧ Γ.TypedFirst (e.childrenSeen err) e.children ∧
        Γ.LeftAfter e (e.childrenSeen err) := by
  cases e with
  | const s c => rw [infer_const] at h; cases h
  | var s x =>
    rw [infer_var] at h
    by_cases hx : Γ.Declares x
    · rw [typeOf_of_declares hx] at h
      cases h
    · rw [typeOf_of_not_declares hx] at h
      cases h
      have hvisit : Γ.infer (.var s x) = ⟨.error (.undeclaredVariable x.name), .var s x, []⟩ := by
        rw [infer, typeOf_of_not_declares hx, Visit.settle_error]
      exact Or.inr ⟨.undeclared hx, typedFirst_zero, leftAfter_of_eq hvisit rfl rfl rfl⟩
  | binary s op l r =>
    rw [infer] at h
    simp only [Visit.andThen_eq_error_iff, Visit.result_settle] at h
    rcases h with hl | ⟨left, hl, h⟩
    · have hvisit : Γ.infer (.binary s op l r) =
          ⟨.error err, .binary s op (Γ.infer l).node r, (Γ.infer l).log⟩ := by
        rw [infer, Visit.andThen_error hl]
      exact Or.inl ⟨0, stopsIn_head hl, fun _ _ => Nat.two_pos,
        leftAfter_of_eq hvisit rfl rfl (by simp [Expr.children])⟩
    have hvisit : Γ.infer (.binary s op l r) =
        ⟨.error err, .binary s op (Γ.infer l).node (Γ.infer r).node,
          (Γ.infer l).log ++ (Γ.infer r).log⟩ := by
      rw [infer, Visit.andThen_ok hl]
      rcases h with hr | ⟨right, hr, ha⟩
      · rw [Visit.andThen_error hr]
      · rw [Visit.andThen_ok hr, ha, Visit.settle_error, List.append_nil]
    have hleft : Γ.LeftAfter (.binary s op l r) 2 :=
      leftAfter_of_eq hvisit rfl rfl (by simp [Expr.children])
    rcases h with hr | ⟨right, hr, ha⟩
    · exact Or.inl ⟨1, (stopsIn_head hr).cons hl, fun _ _ => Nat.one_lt_two, hleft⟩
    · obtain ⟨rfl, hnone⟩ := BinaryOp.apply_eq_error_iff.mp ha
      exact Or.inr ⟨.operands (infer_eq_ok_iff.mp hl) (infer_eq_ok_iff.mp hr) hnone,
        typedFirst_cons hl (typedFirst_cons hr typedFirst_zero), hleft⟩
  | not s a =>
    have hvisit : Γ.infer (.not s a) = (Γ.infer a).andThen (.not s) fun t =>
        .settle t.negate (.not s (Γ.infer a).node) := by rw [infer]
    obtain ⟨hleft, ha | ⟨t, ha, hn⟩⟩ :=
      infer_error_of_operand hvisit (fun _ => rfl) (fun _ => rfl) rfl h
    · exact Or.inl ⟨0, stopsIn_head ha, fun _ _ => Nat.one_pos, hleft⟩
    · obtain ⟨hne, rfl⟩ := Ty.negate_eq_error_iff.mp hn
      exact Or.inr ⟨.operand (infer_eq_ok_iff.mp ha) hne, typedFirst_cons ha typedFirst_zero,
        hleft⟩
  | get s a f =>
    have hvisit : Γ.infer (.get s a f) = (Γ.infer a).andThen (.get s · f) fun t =>
        .settle ((t.elementAt f).map Prod.snd) (.get s (Γ.infer a).node f) := by rw [infer]
    obtain ⟨hleft, ha | ⟨t, ha, hel⟩⟩ :=
      infer_error_of_operand hvisit (fun _ => rfl) (fun _ => rfl) rfl h
    · exact Or.inl ⟨0, stopsIn_head ha, fun _ _ => Nat.one_pos, hleft⟩
    · have hlacks := Ty.lacks_of_elementAt_error (Except.map_eq_error_iff.mp hel)
      exact Or.inr ⟨.readElement (infer_eq_ok_iff.mp ha) hlacks,
        typedFirst_cons ha typedFirst_zero, hleft⟩
  | set s a f v =>
    rw [infer] at h
    simp only [Visit.andThen_eq_error_iff, Visit.guarded_eq_error_iff, Visit.result_settle] at h
    -- the selector is resolved before the value is visited
    rcases h with ha | ⟨t, ha, hel | ⟨⟨i, u⟩, hel, h⟩⟩
    · have hvisit : Γ.infer (.set s a f v) =
          ⟨.error err, .set s (Γ.infer a).node f v, (Γ.infer a).log⟩ := by
        rw [infer, Visit.andThen_error ha]
      have hpos : ∀ err', 0 < (Expr.set s a f v).childrenSeen err' := by
        intro err'
        cases err' <;> simp [Expr.childrenSeen]
      exact Or.inl ⟨0, stopsIn_head ha, fun err' _ => hpos err',
        leftAfter_of_eq hvisit rfl rfl (by simp [Expr.children])⟩
    · have hlacks := Ty.lacks_of_elementAt_error hel
      have hseen : (Expr.set s a f v).childrenSeen err = 1 := by cases hlacks <;> rfl
      have hvisit : Γ.infer (.set s a f v) =
          ⟨.error err, .set s (Γ.infer a).node f v, (Γ.infer a).log⟩ := by
        rw [infer, Visit.andThen_ok ha, hel, Visit.guarded_error, List.append_nil]
      rw [hseen]
      exact Or.inr ⟨.replacedElement (infer_eq_ok_iff.mp ha) hlacks,
        typedFirst_cons ha typedFirst_zero,
        leftAfter_of_eq hvisit rfl rfl (by simp [Expr.children])⟩
    have haggregate := infer_eq_ok_iff.mp ha
    have hselects := Ty.elementAt_eq_ok_iff.mp hel
    have hvisit : Γ.infer (.set s a f v) =
        ⟨.error err, .set s (Γ.infer a).node f (Γ.infer v).node,
          (Γ.infer a).log ++ (Γ.infer v).log⟩ := by
      rw [infer, Visit.andThen_ok ha, hel, Visit.guarded_ok]
      rcases h with hv | ⟨found, hv, hexp⟩
      · rw [Visit.andThen_error hv]
      · rw [Visit.andThen_ok hv, hexp, Visit.settle_error, List.append_nil]
    have hleft : Γ.LeftAfter (.set s a f v) 2 :=
      leftAfter_of_eq hvisit rfl rfl (by simp [Expr.children])
    rcases h with hv | ⟨found, hv, hexp⟩
    · exact Or.inl ⟨1, (stopsIn_head hv).cons ha,
        fun _ hfault => hfault.lt_childrenSeen_set haggregate hselects, hleft⟩
    · obtain ⟨hne, rfl⟩ := Ty.expect_eq_error_iff.mp (Except.map_eq_error_iff.mp hexp)
      exact Or.inr ⟨.replacement haggregate hselects (infer_eq_ok_iff.mp hv) hne,
        typedFirst_cons ha (typedFirst_cons hv typedFirst_zero), hleft⟩
  | deref s p =>
    have hvisit : Γ.infer (.deref s p) = (Γ.infer p).andThen (.deref s) fun t =>
        .settle t.target (.deref s (Γ.infer p).node) := by rw [infer]
    obtain ⟨hleft, hp | ⟨t, hp, ht⟩⟩ :=
      infer_error_of_operand hvisit (fun _ => rfl) (fun _ => rfl) rfl h
    · exact Or.inl ⟨0, stopsIn_head hp, fun _ _ => Nat.one_pos, hleft⟩
    · obtain ⟨hne, rfl⟩ := Ty.target_eq_error_iff.mp ht
      exact Or.inr ⟨.target (infer_eq_ok_iff.mp hp) hne, typedFirst_cons hp typedFirst_zero,
        hleft⟩
  | call s name args =>
    rw [infer_call] at h
    simp only [Visit.andThen_eq_error_iff, Visit.result_settle] at h
    rcases h with hc | ⟨ret, hc, hv⟩
    · have hvisit : Γ.infer (.call s name args) =
          ⟨.error err, .call s name (Γ.checkCall name args).node, (Γ.checkCall name args).log⟩ := by
        rw [infer_call, Visit.andThen_error hc]
      rcases checkCall_error_step hc with ⟨j, hj, hcall, hcovers⟩ | ⟨hfault, htyped, hcovers⟩
      · obtain ⟨-, a, ha, -⟩ := id hj
        have hlt : j < args.length := (List.getElem?_eq_some_iff.mp ha).1
        exact Or.inl ⟨j, hj, fun _ hfault => hfault.lt_childrenSeen_call hlt hcall,
          leftAfter_of_eq hvisit rfl hcovers.node hcovers.log⟩
      · have hseen : (Expr.call s name args).childrenSeen err = err.argumentsSeen := by
          cases hfault <;> rfl
        rw [hseen]
        exact Or.inr ⟨.call hfault, htyped,
          leftAfter_of_eq hvisit rfl hcovers.node hcovers.log⟩
    · -- all arguments have been visited by the time the missing value is noticed
      have hvisit : Γ.infer (.call s name args) =
          ⟨.error err, .call s name (Γ.checkCall name args).node, (Γ.checkCall name args).log⟩ := by
        rw [infer_call, Visit.andThen_ok hc, hv, Visit.settle_error, List.append_nil]
      have hnode : (Γ.checkCall name args).node = Γ.visitFirst args.length args := by
        rw [node_checkCall_of_ok hc, visitFirst_length]
      have hlog := log_checkCall_of_ok hc
      obtain ⟨rfl, rfl⟩ := ReturnTy.asValue_eq_error_iff.mp hv
      obtain ⟨params, hf, htypes⟩ := checkCall_eq_ok_iff.mp hc
      exact Or.inr ⟨.noValue hf htypes, typedFirst_of_haveTypes htypes,
        leftAfter_of_eq hvisit rfl hnode hlog⟩

/-- Inference fails in a child of the node, or the node is at fault. -/
theorem infer_error_cases {e : Expr} (h : (Γ.infer e).result = .error err) :
    (∃ a ∈ e.children, (Γ.infer a).result = .error err) ∨ Γ.ExprFault e err := by
  rcases infer_error_step h with ⟨j, hj, -⟩ | ⟨hfault, -⟩
  · exact Or.inl hj.exists_mem
  · exact Or.inr hfault

/-- **An error of inference is the fault of a node.** -/
theorem exists_fault_of_infer_error {e : Expr} (h : (Γ.infer e).result = .error err) :
    ∃ n ∈ e.nodes, Γ.ExprFault n err := by
  induction e using Expr.induction_children with
  | step e ih =>
    rcases infer_error_cases h with ⟨a, ha, he⟩ | hfault
    · obtain ⟨n, hn, hfault⟩ := ih a ha he
      exact ⟨n, Expr.mem_nodes_of_child ha hn, hfault⟩
    · exact ⟨e, Expr.mem_nodes_self e, hfault⟩

/-! ## Statements -/

/-- What is reported in a statement, apart from its entry and from the blocks inside it. -/
def headLog (Γ : Context) : Stmt → List Event
  | .define x value => (Γ.checkDefine x value).log
  | .assign x value => (Γ.checkAssign x value).log
  | .ret value => (Γ.checkReturn value).log
  | .branch condition _ _ => (Γ.checkCondition condition).log
  | .loop condition _ => (Γ.checkCondition condition).log
  | .call name args => (Γ.checkCall name args).log

section Heads

variable {x : Symbol} {a : Expr} {s : Stmt}

theorem log_checkDefine (value : Option Expr) :
    (Γ.checkDefine x value).log = Γ.logFirst value.toList.length value.toList := by
  cases value with
  | none =>
    rw [toVisit_checkDefine_none]
    cases Γ.declare x <;> rfl
  | some a =>
    rw [toVisit_checkDefine_some, Visit.log_andThen_of_silent]
    · simp
    · intro t
      cases Γ.declare x <;> rfl

theorem log_checkAssign : (Γ.checkAssign x a).log = Γ.logFirst 1 [a] := by
  rw [checkAssign, Visit.log_andThen_of_silent fun _ => rfl]
  simp

theorem log_checkCondition : (Γ.checkCondition a).log = Γ.logFirst 1 [a] := by
  rw [checkCondition, Visit.log_andThen_of_silent fun _ => rfl]
  simp

theorem log_checkReturn {t : Ty} (h : Γ.returns = .value t) (value : Option Expr) :
    (Γ.checkReturn value).log = Γ.logFirst value.toList.length value.toList := by
  unfold checkReturn
  rw [h]
  cases value with
  | none => rfl
  | some a =>
    rw [Visit.log_andThen_of_silent fun _ => rfl]
    simp

/--
**The head of a statement fails in one of its expressions, or the statement is at fault.**

In both cases the expressions in front have types, and these and the failing one are what is
reported. A statement in whose expression the visit stops is not at fault in a way that would have
been noticed before.
-/
theorem headVerdict_error_step (h : Γ.headVerdict s = .error err) :
    (∃ j, Γ.StopsIn s.exprs j err ∧ (∀ err', Γ.StmtFault s err' → j < s.exprsSeen err') ∧
        Γ.headLog s = Γ.logFirst (j + 1) s.exprs) ∨
      Γ.StmtFault s err ∧ Γ.TypedFirst (s.exprsSeen err) s.exprs ∧
        Γ.headLog s = Γ.logFirst (s.exprsSeen err) s.exprs := by
  cases s with
  | define x value =>
    rcases checkDefine_error_cases h with
      ⟨a, rfl, ha⟩ | ⟨hx, htyped, rfl⟩ | ⟨a, found, rfl, ha, hne, rfl⟩
    · exact Or.inl ⟨0, stopsIn_head ha, fun _ _ => Nat.one_pos, log_checkDefine _⟩
    · refine Or.inr ⟨.redeclared hx, fun a ha => ?_, log_checkDefine value⟩
      exact htyped a (Option.mem_toList.mp (List.mem_of_mem_take ha))
    · exact Or.inr ⟨.initial (infer_eq_ok_iff.mp ha) hne, typedFirst_cons ha typedFirst_zero,
        log_checkDefine _⟩
  | assign x value =>
    rcases checkAssign_error_cases h with ha | ⟨hx, ⟨found, ha⟩, rfl⟩ | ⟨found, ha, hne, rfl⟩
    · exact Or.inl ⟨0, stopsIn_head ha, fun _ _ => Nat.one_pos, log_checkAssign⟩
    · exact Or.inr ⟨.undeclared hx, typedFirst_cons ha typedFirst_zero, log_checkAssign⟩
    · exact Or.inr ⟨.assigned (infer_eq_ok_iff.mp ha) hne, typedFirst_cons ha typedFirst_zero,
        log_checkAssign⟩
  | ret value =>
    rcases checkReturn_error_cases h with
      ⟨a, t, rfl, hr, ha⟩ | ⟨a, rfl, hr, rfl⟩ | ⟨t, rfl, hr, rfl⟩ |
        ⟨a, t, found, rfl, hr, ha, hne, rfl⟩
    · refine Or.inl ⟨0, stopsIn_head ha, fun err' hfault => ?_, log_checkReturn hr _⟩
      cases hfault with
      | valueFromVoid hvoid =>
        rw [hr] at hvoid
        cases hvoid
      | returned _ _ _ => exact Nat.one_pos
    · refine Or.inr ⟨.valueFromVoid hr, typedFirst_zero, ?_⟩
      show (Γ.checkReturn (some a)).log = []
      simp only [checkReturn, hr]
    · exact Or.inr ⟨.missingValue hr, typedFirst_zero, log_checkReturn hr _⟩
    · exact Or.inr ⟨.returned hr (infer_eq_ok_iff.mp ha) hne, typedFirst_cons ha typedFirst_zero,
        log_checkReturn hr _⟩
  | branch condition thenBlock elseBlock =>
    rcases checkCondition_error_cases h with ha | ⟨t, ha, hne, rfl⟩
    · exact Or.inl ⟨0, stopsIn_head ha, fun _ _ => Nat.one_pos, log_checkCondition⟩
    · exact Or.inr ⟨.branch (infer_eq_ok_iff.mp ha) hne, typedFirst_cons ha typedFirst_zero,
        log_checkCondition⟩
  | loop condition body =>
    rcases checkCondition_error_cases h with ha | ⟨t, ha, hne, rfl⟩
    · exact Or.inl ⟨0, stopsIn_head ha, fun _ _ => Nat.one_pos, log_checkCondition⟩
    · exact Or.inr ⟨.loop (infer_eq_ok_iff.mp ha) hne, typedFirst_cons ha typedFirst_zero,
        log_checkCondition⟩
  | call name args =>
    rcases checkCall_error_step (headVerdict_call_eq_error_iff.mp h) with
      ⟨j, hj, hcall, hcovers⟩ | ⟨hfault, htyped, hcovers⟩
    · refine Or.inl ⟨j, hj, fun err' hfault => ?_, hcovers.log⟩
      cases hfault with
      | call hfault => exact hcall err' hfault
    · exact Or.inr ⟨.call hfault, htyped, hcovers.log⟩

/-- No more expressions have been visited than there are. -/
theorem StmtFault.exprsSeen_le (h : Γ.StmtFault s err) : s.exprsSeen err ≤ s.exprs.length := by
  cases h with
  | valueFromVoid _ => exact Nat.zero_le _
  | call hfault =>
    cases hfault with
    | argument _ _ ha _ _ _ => exact (List.getElem?_eq_some_iff.mp ha).1
    | _ => exact Nat.zero_le _
  | _ => exact Nat.le_refl _

/-- The head of a statement fails in one of its expressions, or the statement is at fault. -/
theorem headVerdict_error_cases (h : Γ.headVerdict s = .error err) :
    (∃ a ∈ s.exprs, (Γ.infer a).result = .error err) ∨ Γ.StmtFault s err := by
  rcases headVerdict_error_step h with ⟨j, hj, -⟩ | ⟨hfault, -⟩
  · exact Or.inl hj.exists_mem
  · exact Or.inr hfault

end Heads

/-- **An error of the head of a statement is the fault of the statement or of a node in it.** -/
theorem headVerdict_error_fault {s : Stmt} (h : Γ.headVerdict s = .error err) :
    Γ.StmtFault s err ∨ ∃ a ∈ s.exprs, ∃ n ∈ a.nodes, Γ.ExprFault n err := by
  rcases headVerdict_error_cases h with ⟨a, ha, he⟩ | hfault
  · exact Or.inr ⟨a, ha, exists_fault_of_infer_error he⟩
  · exact Or.inl hfault

end Context

end BlockLang
