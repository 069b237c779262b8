import BlockLang.Proofs.Slots.Bare
import Mathlib.Data.List.Forall2

/-!
# Equals replaced by equals

Typing looks at an expression through its verdict only: at the type that was found for it, or at
the error. Two expressions with the same verdict are **alike**, and putting one in the place of the
other changes nothing further up (`Expr.Replaced.result_infer`), at any number of places at once.
Where two expressions are alike in every context, the same holds of all statements, as no statement
lets an expression decide what is declared behind it (`Block.Replaced.result_checkFunction`).

For each node and each statement there is an equation that gives its verdict in terms of the
verdicts of its parts (those of nodes are in `Proofs/Typing/Inference.lean`); the argument is then
one rewriting per constructor of the replacement.
-/

namespace BlockLang

/-! ## Replacing -/

mutual

/-- The second expression is the first one with some of its subexpressions replaced, each by one
that `R` allows for it. Nothing else changes. -/
inductive Expr.Replaced (R : Expr → Expr → Prop) : Expr → Expr → Prop
  | here {e e' : Expr} : R e e' → Replaced R e e'
  | const {s : Option Ty} {c : Literal} : Replaced R (.const s c) (.const s c)
  | var {s : Option Ty} {x : Symbol} : Replaced R (.var s x) (.var s x)
  | binary {s : Option Ty} {op : BinaryOp} {l l' r r' : Expr} :
      Replaced R l l' → Replaced R r r' → Replaced R (.binary s op l r) (.binary s op l' r')
  | not {s : Option Ty} {e e' : Expr} : Replaced R e e' → Replaced R (.not s e) (.not s e')
  | get {s : Option Ty} {a a' : Expr} {f : Selector} :
      Replaced R a a' → Replaced R (.get s a f) (.get s a' f)
  | set {s : Option Ty} {a a' v v' : Expr} {f : Selector} :
      Replaced R a a' → Replaced R v v' → Replaced R (.set s a f v) (.set s a' f v')
  | deref {s : Option Ty} {p p' : Expr} : Replaced R p p' → Replaced R (.deref s p) (.deref s p')
  | call {s : Option Ty} {name : String} {args args' : List Expr} :
      ReplacedAll R args args' → Replaced R (.call s name args) (.call s name args')

/-- The expressions of the second list are those of the first one with subexpressions replaced. -/
inductive Expr.ReplacedAll (R : Expr → Expr → Prop) : List Expr → List Expr → Prop
  | nil : ReplacedAll R [] []
  | cons {e e' : Expr} {es es' : List Expr} :
      Replaced R e e' → ReplacedAll R es es' → ReplacedAll R (e :: es) (e' :: es')

end

mutual

/-- The second statement is the first one with subexpressions replaced. -/
inductive Stmt.Replaced (R : Expr → Expr → Prop) : Stmt → Stmt → Prop
  | declare {x : Symbol} : Stmt.Replaced R (.define x none) (.define x none)
  | define {x : Symbol} {e e' : Expr} :
      e.Replaced R e' → Stmt.Replaced R (.define x (some e)) (.define x (some e'))
  | assign {x : Symbol} {e e' : Expr} :
      e.Replaced R e' → Stmt.Replaced R (.assign x e) (.assign x e')
  | leave : Stmt.Replaced R (.ret none) (.ret none)
  | giveBack {e e' : Expr} : e.Replaced R e' → Stmt.Replaced R (.ret (some e)) (.ret (some e'))
  | branch {c c' : Expr} {thenBlock thenBlock' elseBlock elseBlock' : List Stmt} :
      c.Replaced R c' → Block.Replaced R thenBlock thenBlock' →
      Block.Replaced R elseBlock elseBlock' →
      Stmt.Replaced R (.branch c thenBlock elseBlock) (.branch c' thenBlock' elseBlock')
  | loop {c c' : Expr} {body body' : List Stmt} :
      c.Replaced R c' → Block.Replaced R body body' →
      Stmt.Replaced R (.loop c body) (.loop c' body')
  | call {name : String} {args args' : List Expr} :
      Expr.ReplacedAll R args args' → Stmt.Replaced R (.call name args) (.call name args')

/-- The statements of the second block are those of the first one with subexpressions replaced. -/
inductive Block.Replaced (R : Expr → Expr → Prop) : List Stmt → List Stmt → Prop
  | nil : Block.Replaced R [] []
  | cons {s s' : Stmt} {ss ss' : List Stmt} :
      s.Replaced R s' → Block.Replaced R ss ss' → Block.Replaced R (s :: ss) (s' :: ss')

end

/-- Another literal of the same type, whatever its value and whether or not it is in range. -/
inductive Expr.OtherLiteral : Expr → Expr → Prop
  | intro {s s' : Option Ty} {c c' : Literal} :
      c.ty = c'.ty → OtherLiteral (.const s c) (.const s' c')

variable {R : Expr → Expr → Prop} {Γ : Context}

theorem Stmt.Replaced.defines? {s s' : Stmt} (h : s.Replaced R s') :
    s'.defines? = s.defines? := by
  cases h <;> rfl

namespace Context

/-- Inference gives the same verdict for both: the same type, or the same error. -/
def Alike (Γ : Context) (a b : Expr) : Prop := (Γ.infer a).result = (Γ.infer b).result

/-- Expressions that differ in their slots only are alike. -/
theorem alike_of_bare_eq {a b : Expr} (h : a.bare = b.bare) : Γ.Alike a b := by
  unfold Alike
  rw [← (infer_bare_agrees a).result, ← (infer_bare_agrees b).result, h]

/-- Literals of the same type are alike. -/
theorem alike_of_otherLiteral {a b : Expr} (h : a.OtherLiteral b) : Γ.Alike a b := by
  cases h with
  | intro hty =>
    unfold Alike
    rw [infer, infer, Visit.result_settle, Visit.result_settle, hty]

/-! ## Verdicts of calls -/

/-- Of its arguments a call sees the verdicts, in their order, and stops at the first bad one. -/
theorem result_inferArgs_of_alike {name : String} {ret : ReturnTy} {es es' : List Expr}
    (h : List.Forall₂ Γ.Alike es es') : ∀ {k : Nat} {ts : List Ty},
    (Γ.inferArgs name ret k es' ts).result = (Γ.inferArgs name ret k es ts).result := by
  induction h with
  | nil => intro k ts; rfl
  | @cons e e' es es' he hes ih =>
    intro k ts
    cases ts with
    | nil => rw [inferArgs, inferArgs]
    | cons t ts =>
      rw [inferArgs, inferArgs, Visit.result_andThen, Visit.result_andThen, he]
      congr 1
      funext found
      by_cases hf : found = t
      · rw [if_pos hf, if_pos hf]
        exact ih
      · rw [if_neg hf, if_neg hf]

theorem result_checkCall_of_alike {name : String} {args args' : List Expr}
    (h : List.Forall₂ Γ.Alike args args') :
    (Γ.checkCall name args').result = (Γ.checkCall name args).result := by
  rw [checkCall, checkCall, Visit.result_guarded, Visit.result_guarded, h.length_eq]
  congr 1
  funext sig
  exact result_inferArgs_of_alike h

/-! ## Verdicts of statements -/

theorem result_checkCondition {condition : Expr} :
    (Γ.checkCondition condition).result = (Γ.infer condition).result.bind fun t =>
      if t.isBool then .ok () else .error (.conditionNotBool t) := by
  rw [checkCondition, Visit.result_andThen]

theorem result_checkAssign {x : Symbol} {value : Expr} :
    (Γ.checkAssign x value).result = (Γ.infer value).result.bind fun found =>
      (Γ.typeOf x).bind fun expected => expected.expect found := by
  rw [checkAssign, Visit.result_andThen]

theorem result_checkDefine_some {x : Symbol} {value : Expr} :
    (Γ.checkDefine x (some value)).result = (Γ.infer value).result.bind fun found =>
      (Γ.declare x).bind fun _ => x.ty.expect found := by
  simp only [toVisit_checkDefine_some, Visit.result_andThen, Visit.result_guarded]

/-- A value given back is looked at only if the function gives one back. -/
theorem result_checkReturn_of_alike {a b : Expr} (h : Γ.Alike a b) :
    (Γ.checkReturn (some b)).result = (Γ.checkReturn (some a)).result := by
  unfold checkReturn
  cases Γ.returns with
  | void => rfl
  | value expected => rw [Visit.result_andThen, Visit.result_andThen, h]

/-- The verdict of a statement is that of its head and then of its blocks in their order, the first
bad one winning. -/
theorem result_checkStmt {s : Stmt} :
    (Γ.checkStmt s).result =
      s.blocks.foldl (fun v b => v.bind fun _ => (Γ.checkBlock b).result) (Γ.headVerdict s) := by
  cases s with
  | branch condition thenBlock elseBlock =>
    simp only [checkStmt, headVerdict, Passage.entering, Passage.keeping, Visit.result_entering,
      Visit.result_andThen, Stmt.blocks, List.foldl]
    cases (Γ.checkCondition condition).result <;> rfl
  | loop condition body =>
    simp only [checkStmt, headVerdict, Passage.entering, Passage.keeping, Visit.result_entering,
      Visit.result_andThen, Stmt.blocks, List.foldl]
  | _ => exact result_checkStmt_of_blocks_eq_nil rfl

theorem result_checkBlock_cons {s : Stmt} {ss : List Stmt} :
    (Γ.checkBlock (s :: ss)).result =
      (Γ.checkStmt s).result.bind fun _ =>
        ((Γ.addAll s.defines?.toList).checkBlock ss).result := by
  rw [toVisit_checkBlock_cons, Visit.result_andThen]

/-- The verdict of a function whose parameters can be declared is that of its body. -/
theorem result_checkFunction {params : List Symbol} {body : Block} :
    (Γ.checkFunction params body).result =
      (Γ.declareParams params).bind fun Δ => (Δ.checkBlock body).result := by
  rw [checkFunction, Visit.result_entering, Visit.result_guarded]
  congr 1
  funext Δ
  rw [Visit.result_andThen]
  cases (Δ.checkBlock body).result <;> rfl

end Context

open Context

/-! ## Replacement -/

mutual

/-- **The verdict of an expression does not change when subexpressions are replaced by others that
are alike.** -/
theorem Expr.Replaced.result_infer (hR : ∀ a b, R a b → Γ.Alike a b) :
    ∀ {e e' : Expr}, e.Replaced R e' → (Γ.infer e').result = (Γ.infer e).result
  | _, _, .here h => (hR _ _ h).symm
  | _, _, .const => rfl
  | _, _, .var => rfl
  | _, _, .binary hl hr => by
    rw [result_infer_binary, result_infer_binary, hl.result_infer hR, hr.result_infer hR]
  | _, _, .not ha => by
    rw [result_infer_not, result_infer_not, ha.result_infer hR]
  | _, _, .get ha => by
    rw [result_infer_get, result_infer_get, ha.result_infer hR]
  | _, _, .set ha hv => by
    rw [result_infer_set, result_infer_set, ha.result_infer hR, hv.result_infer hR]
  | _, _, .deref hp => by
    rw [result_infer_deref, result_infer_deref, hp.result_infer hR]
  | _, _, .call hargs => by
    rw [result_infer_call, result_infer_call, result_checkCall_of_alike (hargs.alike hR)]

theorem Expr.ReplacedAll.alike (hR : ∀ a b, R a b → Γ.Alike a b) :
    ∀ {es es' : List Expr}, Expr.ReplacedAll R es es' → List.Forall₂ Γ.Alike es es'
  | _, _, .nil => .nil
  | _, _, .cons he hes => .cons (he.result_infer hR).symm (hes.alike hR)

end

/-- The head of a statement sees its expressions through their verdicts. -/
theorem Stmt.Replaced.headVerdict {s s' : Stmt} (hR : ∀ a b, R a b → Γ.Alike a b)
    (h : s.Replaced R s') : Γ.headVerdict s' = Γ.headVerdict s := by
  cases h with
  | declare => rfl
  | define he => simp only [Context.headVerdict, result_checkDefine_some, he.result_infer hR]
  | assign he => simp only [Context.headVerdict, result_checkAssign, he.result_infer hR]
  | leave => rfl
  | giveBack he => exact result_checkReturn_of_alike (he.result_infer hR).symm
  | branch hc _ _ => simp only [Context.headVerdict, result_checkCondition, hc.result_infer hR]
  | loop hc _ => simp only [Context.headVerdict, result_checkCondition, hc.result_infer hR]
  | call hargs => simp only [Context.headVerdict, result_checkCall_of_alike (hargs.alike hR)]

mutual

/-- A statement with expressions replaced has the verdict that it had. The blocks in it start from
its own context, and a block goes on in one that depends on no expression. -/
theorem Stmt.Replaced.result_checkStmt (hR : ∀ (Δ : Context) (a b : Expr), R a b → Δ.Alike a b) :
    ∀ {s s' : Stmt}, s.Replaced R s' → ∀ {Γ : Context},
      (Γ.checkStmt s').result = (Γ.checkStmt s).result
  | _, _, h@(.branch _ ht he), Γ => by
    rw [Context.result_checkStmt, Context.result_checkStmt, h.headVerdict (hR Γ)]
    simp only [Stmt.blocks, List.foldl, ht.result_checkBlock hR, he.result_checkBlock hR]
  | _, _, h@(.loop _ hb), Γ => by
    rw [Context.result_checkStmt, Context.result_checkStmt, h.headVerdict (hR Γ)]
    simp only [Stmt.blocks, List.foldl, hb.result_checkBlock hR]
  | _, _, .declare, _ => rfl
  | _, _, h@(.define _), Γ => by
    rw [Context.result_checkStmt, Context.result_checkStmt, h.headVerdict (hR Γ)]
    rfl
  | _, _, h@(.assign _), Γ => by
    rw [Context.result_checkStmt, Context.result_checkStmt, h.headVerdict (hR Γ)]
    rfl
  | _, _, .leave, _ => rfl
  | _, _, h@(.giveBack _), Γ => by
    rw [Context.result_checkStmt, Context.result_checkStmt, h.headVerdict (hR Γ)]
    rfl
  | _, _, h@(.call _), Γ => by
    rw [Context.result_checkStmt, Context.result_checkStmt, h.headVerdict (hR Γ)]
    rfl

theorem Block.Replaced.result_checkBlock
    (hR : ∀ (Δ : Context) (a b : Expr), R a b → Δ.Alike a b) :
    ∀ {ss ss' : List Stmt}, Block.Replaced R ss ss' → ∀ {Γ : Context},
      (Γ.checkBlock ss').result = (Γ.checkBlock ss).result
  | _, _, .nil, _ => rfl
  | _, _, .cons hs hss, Γ => by
    rw [result_checkBlock_cons, result_checkBlock_cons, hs.result_checkStmt hR, hs.defines?,
      hss.result_checkBlock hR]

end

/-- **The verdict of a function does not change when expressions in its body are replaced by others
that are alike in every context.** -/
theorem Block.Replaced.result_checkFunction {body body' : Block} {params : List Symbol}
    (h : Block.Replaced R body body') (hR : ∀ (Δ : Context) (a b : Expr), R a b → Δ.Alike a b) :
    (Γ.checkFunction params body').result = (Γ.checkFunction params body).result := by
  rw [Context.result_checkFunction, Context.result_checkFunction]
  congr 1
  funext Δ
  exact h.result_checkBlock hR

/-! ## Equals for equals -/

/-- **Equals may be replaced by equals.**

In a context `Γ`, an expression keeps its verdict, the same type or the same error, when any of its
subexpressions are replaced by others with the same verdict in `Γ`. Hence a function keeps its
verdict when any occurrences of `e₁` in its body, whatever their slots hold, are replaced by an `e₂`
that is alike in every context; and when literals are replaced by others of the same type, be they
in range or not. -/
theorem Context.replaced_keeps_verdict :
    (∀ (Γ : Context) (e e' : Expr), e.Replaced Γ.Alike e' →
      (Γ.infer e').result = (Γ.infer e).result) ∧
    (∀ e₁ e₂ : Expr, (∀ Δ : Context, Δ.Alike e₁ e₂) →
      ∀ (Γ : Context) (params : List Symbol) (body body' : Block),
        Block.Replaced (fun a b => a.bare = e₁.bare ∧ b.bare = e₂.bare) body body' →
        (Γ.checkFunction params body').result = (Γ.checkFunction params body).result) ∧
    (∀ (Γ : Context) (params : List Symbol) (body body' : Block),
      Block.Replaced Expr.OtherLiteral body body' →
      (Γ.checkFunction params body').result = (Γ.checkFunction params body).result) := by
  refine ⟨?_, ?_, ?_⟩
  · intro Γ e e' h
    exact h.result_infer fun _ _ hab => hab
  · intro e₁ e₂ halike Γ params body body' h
    refine h.result_checkFunction fun Δ a b hab => ?_
    have ha : Δ.Alike a e₁ := alike_of_bare_eq hab.1
    have hb : Δ.Alike e₂ b := alike_of_bare_eq hab.2.symm
    exact ha.trans ((halike Δ).trans hb)
  · intro Γ params body body' h
    exact h.result_checkFunction fun _ _ _ hab => alike_of_otherLiteral hab

/-- A body with a test in two places, which gives back a variable that was given a literal. -/
def testedTwice (test : Expr) (literal : Literal) : Block :=
  let x : Symbol := ⟨⟨0⟩, "x", .int .w8⟩
  [.define x none, .loop test [.branch test [.assign x (.const none literal)] []],
    .ret (some (.var none x))]

/-- The test `true` may become `!false` in both places, and a literal of eight bits `300`, which
they cannot hold: the body is refused as before, for what it gives back. In a sum, one undeclared
variable may stand for another of the same name. -/
theorem testedTwice_keeps_verdict :
    let Γ : Context := { returns := .value (.int .w32) }
    let yes : Expr := .const none (.bool true)
    let notNo : Expr := .not none (.const none (.bool false))
    let one : Literal := .int .w8 1
    let tooLarge : Literal := .int .w8 300
    let err := TypeError.returnMismatch (.int .w32) (.int .w8)
    let sum (i : UInt32) : Expr :=
      .binary none .add (.var none ⟨⟨i⟩, "y", .bool⟩) (.var none ⟨⟨i + 1⟩, "z", .bool⟩)
    (Γ.checkFunction [] (testedTwice yes one)).result = .error err ∧
      (Γ.checkFunction [] (testedTwice notNo one)).result = .error err ∧
      (Γ.checkFunction [] (testedTwice yes tooLarge)).result = .error err ∧
      (Γ.infer (sum 5)).result = .error (.undeclaredVariable "y") := by
  intro Γ yes notNo one tooLarge err sum
  obtain ⟨hexpr, hbody, hliteral⟩ := Context.replaced_keeps_verdict
  have hone : (Γ.checkFunction [] (testedTwice yes one)).result = .error err := rfl
  have htest : Expr.Replaced (fun a b => a.bare = yes.bare ∧ b.bare = notNo.bare) yes notNo :=
    .here ⟨rfl, rfl⟩
  refine ⟨hone, ?_, ?_, ?_⟩
  · rw [← hone]
    refine hbody yes notNo (fun _ => rfl) Γ [] _ _ ?_
    exact .cons .declare (.cons (.loop htest (.cons (.branch htest
      (.cons (.assign .const) .nil) .nil) .nil)) (.cons (.giveBack .var) .nil))
  · rw [← hone]
    refine hliteral Γ [] _ _ ?_
    exact .cons .declare (.cons (.loop .const (.cons (.branch .const
      (.cons (.assign (.here (.intro rfl))) .nil) .nil) .nil)) (.cons (.giveBack .var) .nil))
  · have hsum : (Γ.infer (sum 1)).result = .error (.undeclaredVariable "y") := rfl
    rw [← hsum]
    exact hexpr Γ (sum 1) (sum 5) (.binary (.here rfl) (.here rfl))

end BlockLang
