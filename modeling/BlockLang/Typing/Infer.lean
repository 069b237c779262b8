import BlockLang.Tree.Expr
import BlockLang.Typing.Context
import BlockLang.Typing.Rule
import BlockLang.Typing.Visit

/-!
# Types of expressions

`Context.infer` finds the type of an expression from the leaves up. Each node whose type is found
has it recorded, also when a node further up fails later; a node that fails keeps what its slot
held. An expression declares nothing, so the context is only read.

## Order

Operands go from left to right. In a replacement the aggregate comes first, then the selector is
resolved, then the value. In a call the function is looked up and the arguments are counted before
any of them is visited; they then go from left to right, each compared with its parameter before the
next is visited. The first failure ends the visit.

The recursion is structural, on the expression and on the argument list inside it.
-/

namespace BlockLang

namespace Visit

/-- The end of a visit: a type that was found is recorded and reported. -/
def settle (result : Except TypeError Ty) (node : Expr) : Visit Ty Expr :=
  match result with
  | .ok t => ⟨.ok t, node.record t, [.inferred t]⟩
  | .error e => ⟨.error e, node, []⟩

@[simp] theorem settle_ok (t : Ty) (node : Expr) :
    settle (.ok t) node = ⟨.ok t, node.record t, [.inferred t]⟩ := rfl

@[simp] theorem settle_error (e : TypeError) (node : Expr) :
    settle (.error e) node = ⟨.error e, node, []⟩ := rfl

/-- Settling does not change the verdict. -/
@[simp] theorem result_settle (result : Except TypeError Ty) (node : Expr) :
    (settle result node).result = result := by
  cases result <;> rfl

end Visit

namespace Context

mutual

/-- Visits an expression and finds its type. -/
def infer (Γ : Context) : Expr → Visit Ty Expr
  | .const s c => .settle (.ok c.ty) (.const s c)
  | .var s x => .settle (Γ.typeOf x) (.var s x)
  | .binary s op l r =>
    let left := infer Γ l
    left.andThen (fun l' => .binary s op l' r) fun lt =>
      let right := infer Γ r
      right.andThen (fun r' => .binary s op left.node r') fun rt =>
        .settle (op.apply lt rt) (.binary s op left.node right.node)
  | .not s e =>
    let operand := infer Γ e
    operand.andThen (fun e' => .not s e') fun t => .settle t.negate (.not s operand.node)
  | .get s a f =>
    let aggregate := infer Γ a
    aggregate.andThen (fun a' => .get s a' f) fun t =>
      .settle ((t.elementAt f).map Prod.snd) (.get s aggregate.node f)
  | .set s a f v =>
    let aggregate := infer Γ a
    aggregate.andThen (fun a' => .set s a' f v) fun t =>
      .guarded (t.elementAt f) (.set s aggregate.node f v) fun element =>
        let value := infer Γ v
        value.andThen (fun v' => .set s aggregate.node f v') fun found =>
          .settle ((element.2.expect found).map fun _ => t) (.set s aggregate.node f value.node)
  | .deref s p =>
    let pointer := infer Γ p
    pointer.andThen (fun p' => .deref s p') fun t => .settle t.target (.deref s pointer.node)
  | .call s name args =>
    let call : Visit ReturnTy (List Expr) := .guarded (Γ.callee name args.length) args fun sig =>
      inferArgs Γ name sig.ret 0 args sig.params
    call.andThen (fun args' => .call s name args') fun ret =>
      .settle (ret.asValue name) (.call s name call.node)

/-- Visits arguments and compares each with its parameter; the verdict is the result `ret` of the
function called. The first argument in the list has the given position in the call. -/
def inferArgs (Γ : Context) (name : String) (ret : ReturnTy) (position : Nat) :
    List Expr → List Ty → Visit ReturnTy (List Expr)
  | [], _ => ⟨.ok ret, [], []⟩
  | e :: es, [] => ⟨.ok ret, e :: es, []⟩
  | e :: es, t :: ts =>
    let arg := infer Γ e
    arg.andThen (fun e' => e' :: es) fun found =>
      if found = t then
        let rest := inferArgs Γ name ret (position + 1) es ts
        { rest with node := arg.node :: rest.node }
      else ⟨.error (.argumentMismatch name position t found), arg.node :: es, []⟩

end

/-- Visits the arguments of a call; the verdict is the result of the function called. -/
def checkCall (Γ : Context) (name : String) (args : List Expr) : Visit ReturnTy (List Expr) :=
  .guarded (Γ.callee name args.length) args fun sig =>
    Γ.inferArgs name sig.ret 0 args sig.params

/-- **A call as an expression is a checked call whose result is needed as a value.** -/
theorem infer_call (Γ : Context) (s : Option Ty) (name : String) (args : List Expr) :
    Γ.infer (.call s name args) =
      (Γ.checkCall name args).andThen (fun args' => .call s name args') fun ret =>
        .settle (ret.asValue name) (.call s name (Γ.checkCall name args).node) := by
  rw [infer, checkCall]

end Context

end BlockLang
