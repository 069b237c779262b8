import BlockLang.Proofs.Scoping.Place
import BlockLang.Proofs.Typing.Fault

/-!
# Lexical scope

`checkFunction_scopes_by_place` states the scope rules on the tree alone. A variable is visible at a
place of a body when it is declared from the start, is a parameter, or is introduced by a definition
that reaches the place. In an accepted function what is used is visible and what is introduced is
not; when a function is refused over a variable, there is a place where the rule is broken.

The checker has a context instead of places. That the context in force at a place declares exactly
what is visible there (`declares_inForce_iff`) is all that is needed about it: the rest is about one
statement and one context.
-/

namespace BlockLang

/-- The variable is assigned by the statement, or read in one of its expressions at any depth. -/
def Stmt.Uses (s : Stmt) (x : Symbol) : Prop :=
  s.assigns? = some x ∨ ∃ e ∈ s.exprs, ∃ n ∈ e.nodes, n.reads? = some x

namespace Context

variable {Γ : Context} {s : Stmt} {x : Symbol} {name : String}

/-- The variable is visible at a place of a body: it is declared from the start, a parameter, or
introduced by a definition that reaches the place. Only its identity counts. -/
def Visible (Γ : Context) (params : List Symbol) (body : Block) (place : Place) (x : Symbol) :
    Prop :=
  Γ.Declares x ∨ (∃ y ∈ params, y.id = x.id) ∨
    ∃ other s y, body.stmtAt other = some s ∧ s.defines? = some y ∧ other.Reaches place ∧
      y.id = x.id

/-- **The context in force at a place declares exactly what is visible there.** -/
theorem declares_inForce_iff {params : List Symbol} {body : Block} {place : Place} :
    ((Γ.addAll params).inForce body place).Declares x ↔ Γ.Visible params body place x := by
  rw [inForce, declares_addAll, declares_addAll, List.mem_map, List.mem_map]
  constructor
  · rintro (⟨y, hy, hid⟩ | hparam | hstart)
    · obtain ⟨other, s, hs, hd, hr⟩ := Block.mem_visibleAt_iff.mp hy
      exact Or.inr (Or.inr ⟨other, s, y, hs, hd, hr, hid⟩)
    · exact Or.inr (Or.inl hparam)
    · exact Or.inl hstart
  · rintro (hstart | hparam | ⟨other, s, y, hs, hd, hr, hid⟩)
    · exact Or.inr (Or.inr hstart)
    · exact Or.inr (Or.inl hparam)
    · exact Or.inl ⟨y, Block.mem_visibleAt_iff.mpr ⟨other, s, hs, hd, hr⟩, hid⟩

/-! ## One statement -/

/-- A node that reads a variable has a type only if the variable is declared. -/
theorem declares_of_reads {n : Expr} {t : Ty} (h : (Γ.infer n).result = .ok t)
    (hx : n.reads? = some x) : Γ.Declares x := by
  cases n with
  | var slot y =>
    cases hx
    cases infer_eq_ok_iff.mp h with
    | var hd => exact hd
  | _ => cases hx

theorem declares_of_uses (h : Γ.headVerdict s = .ok ()) (hx : s.Uses x) : Γ.Declares x := by
  rcases hx with hassign | ⟨e, he, n, hn, hread⟩
  · cases s with
    | assign y value =>
      cases hassign
      exact (checkAssign_eq_ok_iff.mp h).1
    | _ => cases hassign
  · obtain ⟨t, ht⟩ := exists_infer_of_mem_exprs h e he
    obtain ⟨u, hu⟩ := exists_infer_of_mem_nodes ht hn
    exact declares_of_reads hu hread

theorem not_declares_of_defines (h : Γ.headVerdict s = .ok ()) (hx : s.defines? = some x) :
    ¬ Γ.Declares x := by
  cases s with
  | define y value =>
    cases hx
    exact (checkDefine_eq_ok_iff.mp h).1
  | _ => cases hx

/-- Only a node that reads a variable is refused because it is not declared. -/
theorem exists_reads_of_fault {n : Expr} (h : Γ.ExprFault n (.undeclaredVariable name)) :
    ∃ x, n.reads? = some x ∧ x.name = name ∧ ¬ Γ.Declares x := by
  cases h with
  | undeclared hx => exact ⟨_, rfl, rfl, hx⟩
  | readElement _ hlacks => cases hlacks
  | replacedElement _ hlacks => cases hlacks
  | call hcall => cases hcall

theorem exists_uses_of_headVerdict_error
    (h : Γ.headVerdict s = .error (.undeclaredVariable name)) :
    ∃ x, s.Uses x ∧ x.name = name ∧ ¬ Γ.Declares x := by
  rcases headVerdict_error_fault h with hstmt | ⟨e, he, n, hn, hnode⟩
  · cases hstmt with
    | undeclared hx => exact ⟨_, Or.inl rfl, rfl, hx⟩
    | call hcall => cases hcall
  · obtain ⟨x, hread, hname, hx⟩ := exists_reads_of_fault hnode
    exact ⟨x, Or.inr ⟨e, he, n, hn, hread⟩, hname, hx⟩

/-- Only a definition is refused because its variable is declared. -/
theorem exists_defines_of_headVerdict_error (h : Γ.headVerdict s = .error (.redeclared name)) :
    ∃ x, s.defines? = some x ∧ x.name = name ∧ Γ.Declares x := by
  rcases headVerdict_error_fault h with hstmt | ⟨e, he, n, hn, hnode⟩
  · cases hstmt with
    | redeclared hx => exact ⟨_, rfl, rfl, hx⟩
    | call hcall => cases hcall
  · -- no expression introduces a variable
    cases hnode with
    | readElement _ hlacks => cases hlacks
    | replacedElement _ hlacks => cases hlacks
    | call hcall => cases hcall

/-! ## Functions -/

/--
**Scope is lexical.**

In an accepted function, every variable that a statement uses is visible at its place, and none that
it introduces is. If a function is refused because a variable of some name is not declared, one of
that name is used at a place where it is not visible; if it is refused because one is declared
already, one of that name is introduced where it is visible.
-/
theorem checkFunction_scopes_by_place (Γ : Context) (params : List Symbol) (body : Block) :
    ((Γ.checkFunction params body).result = .ok () →
      ∀ place s, body.stmtAt place = some s →
        (∀ x, s.Uses x → Γ.Visible params body place x) ∧
        (∀ x, s.defines? = some x → ¬ Γ.Visible params body place x)) ∧
    (∀ name, (Γ.checkFunction params body).result = .error (.undeclaredVariable name) →
      ∃ place s x, body.stmtAt place = some s ∧ s.Uses x ∧ x.name = name ∧
        ¬ Γ.Visible params body place x) ∧
    (∀ name, (Γ.checkFunction params body).result = .error (.redeclared name) →
      ∃ place s x, body.stmtAt place = some s ∧ s.defines? = some x ∧ x.name = name ∧
        Γ.Visible params body place x) := by
  refine ⟨?_, ?_, ?_⟩
  · intro h place s hs
    obtain ⟨-, hbody⟩ := checkFunction_eq_ok_iff.mp h
    have hhead := headVerdict_of_checkBlock_ok hbody hs
    refine ⟨fun x hx => declares_inForce_iff.mp (declares_of_uses hhead hx), ?_⟩
    intro x hx hvisible
    exact not_declares_of_defines hhead hx (declares_inForce_iff.mpr hvisible)
  · intro name h
    obtain ⟨place, s, hs, hhead⟩ := exists_place_of_checkFunction_error h (by simp)
    obtain ⟨x, huses, hname, hx⟩ := exists_uses_of_headVerdict_error hhead
    exact ⟨place, s, x, hs, huses, hname, fun hv => hx (declares_inForce_iff.mpr hv)⟩
  · intro name h
    obtain ⟨place, s, hs, hhead⟩ := exists_place_of_checkFunction_error h (by simp)
    obtain ⟨x, hdef, hname, hx⟩ := exists_defines_of_headVerdict_error hhead
    exact ⟨place, s, x, hs, hdef, hname, declares_inForce_iff.mp hx⟩

/-- A variable of the program `armsBody`. -/
def armsVar : Symbol := ⟨⟨0⟩, "x", .bool⟩

/-- One variable introduced in both arms of a branch, then behind it, and assigned in a loop. -/
def armsBody : Block :=
  [.branch (.const none (.bool true)) [.define armsVar none] [.define armsVar none],
    .define armsVar (some (.const none (.bool true))),
    .loop (.var none armsVar) [.assign armsVar (.const none (.bool false))]]

/-- The body is accepted: one arm does not see the other, and the loop sees what stands in front of
it. Without the definition behind the branch the variable is not visible in the loop, and with a
parameter of its identity it is visible too early. -/
theorem armsBody_scopes_by_place :
    (checkFunction {} [] armsBody).result = .ok () ∧
    ¬ Visible {} [] armsBody (.inside 0 1 (.direct 0)) armsVar ∧
    Visible {} [] armsBody (.inside 2 0 (.direct 0)) armsVar ∧
    (∃ place s x, Block.stmtAt (armsBody.eraseIdx 1) place = some s ∧ s.Uses x ∧ x.name = "x" ∧
      ¬ Visible {} [] (armsBody.eraseIdx 1) place x) ∧
    (∃ place s x, armsBody.stmtAt place = some s ∧ s.defines? = some x ∧ x.name = "x" ∧
      Visible {} [armsVar] armsBody place x) := by
  have haccepted := (checkFunction_scopes_by_place {} [] armsBody).1 rfl
  refine ⟨rfl, ?_, ?_, ?_, ?_⟩
  · exact (haccepted (.inside 0 1 (.direct 0)) _ rfl).2 armsVar rfl
  · exact (haccepted (.inside 2 0 (.direct 0)) _ rfl).1 armsVar (Or.inl rfl)
  · exact (checkFunction_scopes_by_place {} [] (armsBody.eraseIdx 1)).2.1 "x" rfl
  · exact (checkFunction_scopes_by_place {} [armsVar] armsBody).2.2 "x" rfl

end Context

end BlockLang
