import BlockLang.Signature
import BlockLang.Symbol.Table
import BlockLang.Typing.Error

/-!
# Contexts

What typing knows at a place in a program: the signatures that may be called, what the enclosing
function gives back, and the variables that are declared. A scope is a set of identities; that no
identity stands in it twice is part of the type, so its size counts variables.

Contexts are values. Inside a branch or a loop the same context is used again, and what is declared
there reaches nobody else.
-/

namespace BlockLang

/-! ## Scopes -/

/-- The declared variables, the latest first. -/
structure Scope where
  ids : List SymbolId := []
  nodup : ids.Nodup := by simp

namespace Scope

/-- Whether a variable is declared. -/
def contains (scope : Scope) (x : Symbol) : Bool := decide (x.id ∈ scope.ids)

/-- The number of declared variables. -/
def size (scope : Scope) : Nat := scope.ids.length

/-- The scope with one more variable; `none` if it is declared already. -/
def insert? (scope : Scope) (x : Symbol) : Option Scope :=
  if h : x.id ∈ scope.ids then none
  else some ⟨x.id :: scope.ids, List.nodup_cons.mpr ⟨h, scope.nodup⟩⟩

/-- Adding a variable puts its identity in front. -/
theorem ids_insert? {scope larger : Scope} {x : Symbol} (h : scope.insert? x = some larger) :
    larger.ids = x.id :: scope.ids := by
  unfold insert? at h
  split at h
  · exact absurd h (by simp)
  · rw [← Option.some.inj h]

/-- Adding a variable makes the scope larger by one. -/
theorem size_insert? {scope larger : Scope} {x : Symbol} (h : scope.insert? x = some larger) :
    larger.size = scope.size + 1 := by
  simp [size, ids_insert? h]

end Scope

/-! ## Contexts -/

/-- What typing knows at a place in a program. -/
structure Context where
  signatures : SignatureTable := {}
  returns : ReturnTy := .void
  scope : Scope := {}

namespace Context

/-- Declares a variable. -/
def declare (Γ : Context) (x : Symbol) : Except TypeError Context :=
  match Γ.scope.insert? x with
  | some scope => .ok { Γ with scope }
  | none => .error (.redeclared x.name)

/-- Declares the parameters of a function from left to right. Whether a parameter is declared is
asked first, so that it is refused as a parameter and not as a variable. -/
def declareParams (Γ : Context) : List Symbol → Except TypeError Context
  | [] => .ok Γ
  | x :: xs =>
    if Γ.scope.contains x then .error (.duplicateParameter x.name)
    else
      match Γ.declare x with
      | .ok Δ => Δ.declareParams xs
      | .error e => .error e

/-- The type of a variable, which has to be declared. -/
def typeOf (Γ : Context) (x : Symbol) : Except TypeError Ty :=
  if Γ.scope.contains x then .ok x.ty else .error (.undeclaredVariable x.name)

/-- The signature of a function that is called with a number of arguments. -/
def callee (Γ : Context) (name : String) (count : Nat) : Except TypeError Signature :=
  match Γ.signatures.find? name with
  | none => .error (.undeclaredFunction name)
  | some sig =>
    if sig.params.length = count then .ok sig
    else .error (.arityMismatch name sig.params.length count)

end Context

end BlockLang
