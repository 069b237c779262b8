import BlockLang.Tree.Stmt
import BlockLang.Typing.Error

/-!
# Visits

A visit of a part of a tree has three outcomes at once: a verdict, the part as the visit leaves it,
and the events on the way. The last two are there whether the verdict is good or bad, since types
that were recorded before a failure stay recorded.

Visits are put together by `andThen`, which stops at the first bad verdict, and by `guarded`, which
asks a rule before going on.

## Events

Typing reports each step of its walk: that it enters a function or a statement, that an expression
has received its type, and that a body was accepted. An expression is reported when its type is
recorded, so children come before their parent and a failing expression is not reported at all.
-/

namespace BlockLang

/-! ## Events -/

/-- A step of typing. -/
inductive Event where
  /-- A function with that many parameters is entered. -/
  | enterFunction (params : Nat)
  /-- A statement is entered. -/
  | enterStmt (kind : StmtKind)
  /-- An expression has received its type. -/
  | inferred (ty : Ty)
  /-- A body was accepted, with that many variables declared at its end. -/
  | bodyChecked (declared : Nat)
deriving DecidableEq

/-- An event in words, its level first. -/
def Event.text : Event → String
  | enterFunction params => "DEBUG span check_function params=" ++ params.repr
  | enterStmt kind => "TRACE check statement kind=" ++ kind.word
  | inferred ty => "TRACE inferred expression ty=" ++ ty.text
  | bodyChecked declared => "DEBUG function body checked declared=" ++ declared.repr

/-! ## Visits -/

/-- The outcome of visiting a part of a tree. -/
structure Visit (ρ α : Type) where
  /-- The verdict. -/
  result : Except TypeError ρ
  /-- The part, with the types recorded by this visit. -/
  node : α
  /-- The events of this visit, in order. -/
  log : List Event

namespace Visit

variable {ρ σ α β : Type}

/-- Goes on after a good verdict. After a bad one, `stopped` says what is left of the whole. -/
def andThen (v : Visit ρ α) (stopped : α → β) (next : ρ → Visit σ β) : Visit σ β :=
  match v.result with
  | .error e => ⟨.error e, stopped v.node, v.log⟩
  | .ok a =>
    let w := next a
    ⟨w.result, w.node, v.log ++ w.log⟩

/-- Goes on if a rule allows it, and leaves the part as it is otherwise. -/
def guarded (rule : Except TypeError σ) (node : α) (next : σ → Visit ρ α) : Visit ρ α :=
  match rule with
  | .error e => ⟨.error e, node, []⟩
  | .ok a => next a

/-- The visit with an event in front of all others. -/
def entering (event : Event) (v : Visit ρ α) : Visit ρ α :=
  { v with log := event :: v.log }

/-! ## Equations -/

theorem andThen_error {v : Visit ρ α} {e : TypeError} (h : v.result = .error e)
    (stopped : α → β) (next : ρ → Visit σ β) :
    v.andThen stopped next = ⟨.error e, stopped v.node, v.log⟩ := by
  simp only [andThen, h]

theorem andThen_ok {v : Visit ρ α} {a : ρ} (h : v.result = .ok a)
    (stopped : α → β) (next : ρ → Visit σ β) :
    v.andThen stopped next = ⟨(next a).result, (next a).node, v.log ++ (next a).log⟩ := by
  simp only [andThen, h]

/-- The verdict of a visit that goes on is that of the parts, the first bad one winning. -/
theorem result_andThen (v : Visit ρ α) (stopped : α → β) (next : ρ → Visit σ β) :
    (v.andThen stopped next).result = v.result.bind fun a => (next a).result := by
  unfold andThen
  cases v.result <;> rfl

@[simp] theorem guarded_error (e : TypeError) (node : α) (next : σ → Visit ρ α) :
    guarded (.error e) node next = ⟨.error e, node, []⟩ := rfl

@[simp] theorem guarded_ok (a : σ) (node : α) (next : σ → Visit ρ α) :
    guarded (.ok a) node next = next a := rfl

/-- A rule that refuses gives its error, and one that allows leaves the verdict to the rest. -/
theorem result_guarded (rule : Except TypeError σ) (node : α) (next : σ → Visit ρ α) :
    (guarded rule node next).result = rule.bind fun a => (next a).result := by
  cases rule <;> rfl

@[simp] theorem result_entering (event : Event) (v : Visit ρ α) :
    (v.entering event).result = v.result := rfl

@[simp] theorem node_entering (event : Event) (v : Visit ρ α) :
    (v.entering event).node = v.node := rfl

@[simp] theorem log_entering (event : Event) (v : Visit ρ α) :
    (v.entering event).log = event :: v.log := rfl

end Visit

end BlockLang
