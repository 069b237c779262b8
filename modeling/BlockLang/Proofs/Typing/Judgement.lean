import BlockLang.Proofs.Context
import BlockLang.Proofs.Typing.Rule
import BlockLang.Tree.Stmt

/-!
# The typing judgements

What it means for a program to be well typed, written down as rules and without regard to how a
checker decides it. There are four judgements:

* `Γ.HasType e t` — the expression `e` has the type `t`;
* `Γ.HaveTypes es ts` — the expressions have the types, position by position;
* `Γ.StmtTyped s Δ` — the statement `s` is well typed, and what follows it in its block is typed
  in `Δ`;
* `Γ.BlockTyped ss` — the statements form a well-typed block.

Only a definition hands on another context than it received. A block hands on none: what it declares
is known inside it and nowhere else. Slots play no part in any rule.

`Proofs/Typing/Inference.lean` and `Proofs/Typing/Checking.lean` show that inference and checking
decide these judgements.
-/

namespace BlockLang.Context

/-! ## Expressions -/

mutual

/-- The expression has the type. There is one rule for each kind of node. -/
inductive HasType (Γ : Context) : Expr → Ty → Prop
  | const {s : Option Ty} {c : Literal} : HasType Γ (.const s c) c.ty
  | var {s : Option Ty} {x : Symbol} : Γ.Declares x → HasType Γ (.var s x) x.ty
  | binary {s : Option Ty} {op : BinaryOp} {l r : Expr} {lt rt t : Ty} :
      HasType Γ l lt → HasType Γ r rt → op.family.Joins lt rt t →
      HasType Γ (.binary s op l r) t
  | not {s : Option Ty} {e : Expr} : HasType Γ e .bool → HasType Γ (.not s e) .bool
  | get {s : Option Ty} {a : Expr} {f : Selector} {i : Nat} {t u : Ty} :
      HasType Γ a t → t.Selects f i u → HasType Γ (.get s a f) u
  | set {s : Option Ty} {a v : Expr} {f : Selector} {i : Nat} {t u : Ty} :
      HasType Γ a t → t.Selects f i u → HasType Γ v u → HasType Γ (.set s a f v) t
  | deref {s : Option Ty} {p : Expr} {t : Ty} :
      HasType Γ p (.pointer t) → HasType Γ (.deref s p) t
  | call {s : Option Ty} {name : String} {args : List Expr} {params : List Ty} {t : Ty} :
      Γ.signatures.find? name = some ⟨params, .value t⟩ → HaveTypes Γ args params →
      HasType Γ (.call s name args) t

/-- The expressions have the types, position by position. -/
inductive HaveTypes (Γ : Context) : List Expr → List Ty → Prop
  | nil : HaveTypes Γ [] []
  | cons {e : Expr} {es : List Expr} {t : Ty} {ts : List Ty} :
      HasType Γ e t → HaveTypes Γ es ts → HaveTypes Γ (e :: es) (t :: ts)

end

/-! ## Statements and blocks -/

mutual

/-- The statement is well typed, and the statements after it are typed in the second context. -/
inductive StmtTyped : Context → Stmt → Context → Prop
  | declare {Γ : Context} {x : Symbol} :
      ¬ Γ.Declares x → StmtTyped Γ (.define x none) (Γ.add x)
  | define {Γ : Context} {x : Symbol} {e : Expr} :
      ¬ Γ.Declares x → Γ.HasType e x.ty → StmtTyped Γ (.define x (some e)) (Γ.add x)
  | assign {Γ : Context} {x : Symbol} {e : Expr} :
      Γ.Declares x → Γ.HasType e x.ty → StmtTyped Γ (.assign x e) Γ
  | leave {Γ : Context} : Γ.returns = .void → StmtTyped Γ (.ret none) Γ
  | giveBack {Γ : Context} {e : Expr} {t : Ty} :
      Γ.returns = .value t → Γ.HasType e t → StmtTyped Γ (.ret (some e)) Γ
  | branch {Γ : Context} {c : Expr} {thenBlock elseBlock : List Stmt} :
      Γ.HasType c .bool → BlockTyped Γ thenBlock → BlockTyped Γ elseBlock →
      StmtTyped Γ (.branch c thenBlock elseBlock) Γ
  | loop {Γ : Context} {c : Expr} {body : List Stmt} :
      Γ.HasType c .bool → BlockTyped Γ body → StmtTyped Γ (.loop c body) Γ
  | call {Γ : Context} {name : String} {args : List Expr} {params : List Ty} {ret : ReturnTy} :
      Γ.signatures.find? name = some ⟨params, ret⟩ → Γ.HaveTypes args params →
      StmtTyped Γ (.call name args) Γ

/-- The statements form a well-typed block. -/
inductive BlockTyped : Context → List Stmt → Prop
  | nil {Γ : Context} : BlockTyped Γ []
  | cons {Γ Δ : Context} {s : Stmt} {ss : List Stmt} :
      StmtTyped Γ s Δ → BlockTyped Δ ss → BlockTyped Γ (s :: ss)

end

/-- As many expressions as types are needed. -/
theorem HaveTypes.length_eq {Γ : Context} {es : List Expr} {ts : List Ty}
    (h : Γ.HaveTypes es ts) : es.length = ts.length := by
  induction es generalizing ts with
  | nil => cases h; rfl
  | cons e es ih =>
    cases h with
    | cons _ hrest => rw [List.length_cons, List.length_cons, ih hrest]

end BlockLang.Context
