import BlockLang.Typing.Infer

/-!
# Checking statements and functions

A block hands one context from statement to statement, so what is declared in it is known to the
statements that follow. The blocks of a branch and the body of a loop start from the context in
front of the statement, and what they declare ends with them.

## Order

A definition visits its value first, then declares its variable, and compares the types last: **when
only the types differ, the variable is declared all the same**. An assignment visits its value
before it asks whether the variable is declared. A return of a value where nothing is to be given
back fails without a visit of the value.

The recursion is structural, on the statement and on the blocks inside it.
-/

namespace BlockLang

/-- The outcome of visiting statements, and the context behind them. -/
structure Passage (α : Type) extends Visit Unit α where
  /-- What is known behind the part, also after a bad verdict. -/
  context : Context

namespace Passage

/-- A visit that changes nothing about what is known. -/
def keeping (Γ : Context) {α : Type} (v : Visit Unit α) : Passage α := ⟨v, Γ⟩

/-- The passage with an event in front of all others. -/
def entering (event : Event) {α : Type} (p : Passage α) : Passage α :=
  ⟨p.toVisit.entering event, p.context⟩

end Passage

namespace Context

/-! ## Parts of statements -/

/-- Visits a condition, which has to be of type `Bool`. -/
def checkCondition (Γ : Context) (condition : Expr) : Visit Unit Expr :=
  let v := Γ.infer condition
  v.andThen id fun t =>
    ⟨if t.isBool then .ok () else .error (.conditionNotBool t), v.node, []⟩

/-- Visits the value of a return, which has to be what the function gives back. -/
def checkReturn (Γ : Context) (value : Option Expr) : Visit Unit (Option Expr) :=
  match Γ.returns, value with
  | .void, none => ⟨.ok (), none, []⟩
  | .void, some e => ⟨.error .valueFromVoid, some e, []⟩
  | .value expected, none => ⟨.error (.missingValue expected), none, []⟩
  | .value expected, some e =>
    let v := Γ.infer e
    v.andThen some fun found =>
      ⟨if found = expected then .ok () else .error (.returnMismatch expected found), some v.node,
        []⟩

/-- Visits an assigned value; the variable has to be declared and of the same type. -/
def checkAssign (Γ : Context) (x : Symbol) (value : Expr) : Visit Unit Expr :=
  let v := Γ.infer value
  v.andThen id fun found =>
    ⟨(Γ.typeOf x).bind fun expected => expected.expect found, v.node, []⟩

/-- Visits the value of a definition, if any, and declares the variable. -/
def checkDefine (Γ : Context) (x : Symbol) : Option Expr → Passage (Option Expr)
  | none =>
    match Γ.declare x with
    | .error e => ⟨⟨.error e, none, []⟩, Γ⟩
    | .ok Δ => ⟨⟨.ok (), none, []⟩, Δ⟩
  | some e =>
    let v := Γ.infer e
    match v.result with
    | .error e => ⟨⟨.error e, some v.node, v.log⟩, Γ⟩
    | .ok found =>
      match Γ.declare x with
      | .error e => ⟨⟨.error e, some v.node, v.log⟩, Γ⟩
      | .ok Δ => ⟨⟨x.ty.expect found, some v.node, v.log⟩, Δ⟩

/-! ## Statements and blocks -/

mutual

/-- Visits a statement. -/
def checkStmt (Γ : Context) : Stmt → Passage Stmt
  | .define x value =>
    let p := Γ.checkDefine x value
    .entering (.enterStmt .define) ⟨⟨p.result, .define x p.node, p.log⟩, p.context⟩
  | .assign x value =>
    let v := Γ.checkAssign x value
    .entering (.enterStmt .assign) (.keeping Γ ⟨v.result, .assign x v.node, v.log⟩)
  | .ret value =>
    let v := Γ.checkReturn value
    .entering (.enterStmt .ret) (.keeping Γ ⟨v.result, .ret v.node, v.log⟩)
  | .branch condition thenBlock elseBlock =>
    let v := Γ.checkCondition condition
    .entering (.enterStmt .branch) <| .keeping Γ <|
      v.andThen (fun c => .branch c thenBlock elseBlock) fun _ =>
        let first := checkBlock Γ thenBlock
        first.toVisit.andThen (fun b => .branch v.node b elseBlock) fun _ =>
          let second := checkBlock Γ elseBlock
          ⟨second.result, .branch v.node first.node second.node, second.log⟩
  | .loop condition body =>
    let v := Γ.checkCondition condition
    .entering (.enterStmt .loop) <| .keeping Γ <|
      v.andThen (fun c => .loop c body) fun _ =>
        let inner := checkBlock Γ body
        ⟨inner.result, .loop v.node inner.node, inner.log⟩
  | .call name args =>
    let v := Γ.checkCall name args
    .entering (.enterStmt .call) (.keeping Γ ⟨v.result.map fun _ => (), .call name v.node, v.log⟩)

/-- Visits the statements of a block in order. -/
def checkBlock (Γ : Context) : List Stmt → Passage (List Stmt)
  | [] => ⟨⟨.ok (), [], []⟩, Γ⟩
  | s :: ss =>
    let first := checkStmt Γ s
    match first.result with
    | .error e => ⟨⟨.error e, first.node :: ss, first.log⟩, first.context⟩
    | .ok _ =>
      let rest := checkBlock first.context ss
      ⟨⟨rest.result, first.node :: rest.node, first.log ++ rest.log⟩, rest.context⟩

end

/-! ## Functions -/

/-- Visits the body of a function, with its parameters declared. -/
def checkFunction (Γ : Context) (params : List Symbol) (body : Block) : Visit Unit Block :=
  .entering (.enterFunction params.length) <|
    .guarded (Γ.declareParams params) body fun Δ =>
      let p := Δ.checkBlock body
      p.toVisit.andThen id fun _ => ⟨.ok (), p.node, [.bodyChecked p.context.scope.size]⟩

end Context

end BlockLang
