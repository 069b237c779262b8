import BlockLang.Proofs.Scoping.Place
import BlockLang.Proofs.Typing.Fault

/-!
# Errors are truthful

`checkFunction_error_is_fault`: whatever error a function is refused with, one of its parameters, of
the statements of its body or of the expression nodes in them is at fault in the way that the error
describes, in the context in force at its place.

`Fault.lean` says this of one statement and one context, and `Place.lean` finds the statement and
the context. What is left is to put them together.
-/

namespace BlockLang.Context

variable {Γ : Context} {params : List Symbol} {body : Block} {err : TypeError}

/-- A part of the function is wrong in the way that the error describes. -/
inductive FunctionFault (Γ : Context) (params : List Symbol) (body : Block) : TypeError → Prop
  | parameter {earlier later : List Symbol} {x : Symbol} :
      params = earlier ++ x :: later → (∃ y ∈ earlier, y.id = x.id) ∨ Γ.Declares x →
      FunctionFault Γ params body (.duplicateParameter x.name)
  | statement {place : Place} {s : Stmt} {err : TypeError} :
      body.stmtAt place = some s → ((Γ.addAll params).inForce body place).StmtFault s err →
      FunctionFault Γ params body err
  | node {place : Place} {s : Stmt} {e n : Expr} {err : TypeError} :
      body.stmtAt place = some s → e ∈ s.exprs → n ∈ e.nodes →
      ((Γ.addAll params).inForce body place).ExprFault n err → FunctionFault Γ params body err

theorem functionFault_of_declareParams_error (h : Γ.declareParams params = .error err) :
    Γ.FunctionFault params body err := by
  obtain ⟨earlier, x, later, hsplit, rfl, hx⟩ := exists_of_declareParams_error h
  exact .parameter hsplit hx

theorem functionFault_of_headVerdict_error {place : Place} {s : Stmt}
    (hs : body.stmtAt place = some s)
    (h : ((Γ.addAll params).inForce body place).headVerdict s = .error err) :
    Γ.FunctionFault params body err := by
  rcases headVerdict_error_fault h with hstmt | ⟨e, he, n, hn, hnode⟩
  · exact .statement hs hstmt
  · exact .node hs he hn hnode

/--
**Every error is truthful.** A function that is refused has a part that is wrong in the way that the
error describes.
-/
theorem checkFunction_error_is_fault (Γ : Context) (params : List Symbol) (body : Block)
    (err : TypeError) (h : (Γ.checkFunction params body).result = .error err) :
    Γ.FunctionFault params body err := by
  rcases checkFunction_error_cases h with hparams | ⟨place, s, hs, hhead⟩
  · exact functionFault_of_declareParams_error hparams
  · exact functionFault_of_headVerdict_error hs hhead

/-- A function that is called with a number where it takes a truth value, deep inside a body that
introduces the number in front. -/
def deepCall : Block :=
  [.define ⟨⟨0⟩, "x", .int .w32⟩ (some (.const none (.int .w32 7))),
    .branch (.const none (.bool true)) []
      [.loop (.const none (.bool true))
        [.call "f" [.var none ⟨⟨0⟩, "x", .int .w32⟩, .var none ⟨⟨0⟩, "x", .int .w32⟩]]]]

/-- The second argument is blamed, with the type of the parameter and its own. -/
theorem deepCall_error_is_fault :
    let Γ : Context := { signatures := ⟨[("f", ⟨[.int .w32, .bool], .void⟩)]⟩ }
    (Γ.checkFunction [] deepCall).result = .error (.argumentMismatch "f" 1 .bool (.int .w32)) ∧
      Γ.FunctionFault [] deepCall (.argumentMismatch "f" 1 .bool (.int .w32)) :=
  ⟨rfl, checkFunction_error_is_fault _ [] deepCall _ rfl⟩

end BlockLang.Context
