import BlockLang.Proofs.Slots.Recorded
import BlockLang.Proofs.Ty.Resolution
import Mathlib.Logic.Relation

/-!
# Where types come from

Inference makes up no types. The types that it meets are there before: those of the literals and of
the variables in the expression, and the results of the functions that are called. Selecting an
element and following a pointer take such a type apart, all other rules hand it on or give `Bool`.
So each type that is found or recorded is `Bool`, the type of a literal, or a **component** of the
type of a variable or of a result (`Origin`).

* `Origin.inner` — what a type of the expression contains is a type of the expression again;
* `origin_of_hasType` — by induction over the expression, the type of an expression is one;
* `Ty.Built.component` — the components of a type that was built were built themselves, so that
  selectors are resolved exactly wherever inference meets them;
* `infer_invents_no_type` — both together, for all nodes of an expression.
-/

namespace BlockLang

/-! ## Components of types -/

namespace Ty

/-- The second type stands directly inside the first one. -/
inductive Contains : Ty → Ty → Prop
  | element {t : Ty} {length : Nat} : Contains (.array t length) t
  | field {fields : List (String × Ty)} {name : String} {t : Ty} :
      (name, t) ∈ fields → Contains (.struct fields) t
  | pointee {t : Ty} : Contains (.pointer t) t

/-- The second type is the first one, or is reached from it by elements, fields and pointers. -/
def Component : Ty → Ty → Prop := Relation.ReflTransGen Contains

variable {t u : Ty}

/-- What a selector picks stands directly inside the aggregate. -/
theorem Selects.contains {f : Selector} {i : Nat} (h : t.Selects f i u) : t.Contains u := by
  cases h with
  | item _ => exact .element
  | position hi => exact .field (List.mem_of_getElem? hi)
  | field hi _ => exact .field (List.mem_of_getElem? hi)

/-- Nothing stands inside the type of a literal. -/
theorem not_contains_literal {c : Literal} : ¬ c.ty.Contains u := by
  intro h
  cases c <;> cases h

theorem Built.inner (h : t.Built) (hc : t.Contains u) : u.Built := by
  cases h with
  | bool => cases hc
  | int w => cases hc
  | float w => cases hc
  | array length helement =>
    cases hc with
    | element => exact helement
  | struct hfields hbuilt =>
    obtain ⟨-, rfl⟩ := ofFields_eq_ok_iff.mp hbuilt
    cases hc with
    | field hmem => exact hfields _ hmem
  | pointer hpointee =>
    cases hc with
    | pointee => exact hpointee

/-- **The components of a type that was built were built.** -/
theorem Built.component (h : t.Built) (hc : t.Component u) : u.Built := by
  induction hc with
  | refl => exact h
  | tail _ hinner ih => exact ih.inner hinner

theorem built_literal (c : Literal) : c.ty.Built := by
  cases c with
  | bool _ => exact .bool
  | int w _ => exact .int w
  | float32 _ => exact .float .w32
  | float64 _ => exact .float .w64

/-- If the type is a struct, it has an index, which finds exactly the positions of its fields. -/
def Indexed (t : Ty) : Prop :=
  ∀ fields, t = .struct fields → ∃ s, StructTy.ofFields fields = .ok s ∧ s.fields = fields ∧
    ∀ name i, s.fieldIndex? name = some i ↔ ∃ u, fields[i]? = some (name, u)

/-- A selector picks exactly the element that it names, where trees are put together and where they
are typed. -/
def ResolvesExactly (t : Ty) : Prop :=
  ∀ f i u, (t.select f = .ok (i, u) ↔ t.HasElement f i u) ∧
    (t.elementAt f = .ok (i, u) ↔ t.HasElement f i u)

theorem Built.indexed (h : t.Built) : t.Indexed := by
  rintro fields rfl
  obtain ⟨s, hs⟩ := h.exists_structTy
  exact ⟨s, hs, (StructTy.fields_index_of_ofFields hs).1,
    fun name i => StructTy.fieldIndex?_eq_some_iff hs⟩

theorem Built.resolvesExactly (h : t.Built) : t.ResolvesExactly := by
  intro f i u
  rw [select_eq_ok_iff, elementAt_eq_ok_iff, h.selects_iff]
  exact ⟨Iff.rfl, Iff.rfl⟩

end Ty

namespace Context

variable {Γ : Context} {e a : Expr} {t u : Ty}

/-! ## Origins -/

/-- The type is `Bool`, or comes from a literal, from a variable or from a result that stands in the
expression. -/
inductive Origin (Γ : Context) (e : Expr) : Ty → Prop
  | bool : Origin Γ e .bool
  | literal {s : Option Ty} {c : Literal} : .const s c ∈ e.nodes → Origin Γ e c.ty
  | read {s : Option Ty} {x : Symbol} {t : Ty} :
      .var s x ∈ e.nodes → x.ty.Component t → Origin Γ e t
  | returned {s : Option Ty} {name : String} {args : List Expr} {params : List Ty} {ret t : Ty} :
      .call s name args ∈ e.nodes → Γ.signatures.find? name = some ⟨params, .value ret⟩ →
      ret.Component t → Origin Γ e t

/-- What stands in a part of an expression stands in the expression. -/
theorem Origin.mono (h : Γ.Origin a t) (hsub : ∀ n ∈ a.nodes, n ∈ e.nodes) : Γ.Origin e t := by
  cases h with
  | bool => exact .bool
  | literal hc => exact .literal (hsub _ hc)
  | read hx hcomp => exact .read (hsub _ hx) hcomp
  | returned hcall hf hcomp => exact .returned (hsub _ hcall) hf hcomp

theorem Origin.child (h : Γ.Origin a t) (ha : a ∈ e.children) : Γ.Origin e t :=
  h.mono fun _ hn => Expr.mem_nodes_of_child ha hn

/-- **Taking a type apart gives no new type.** -/
theorem Origin.inner (h : Γ.Origin e t) (hc : t.Contains u) : Γ.Origin e u := by
  cases h with
  | bool => cases hc
  | literal _ => exact absurd hc Ty.not_contains_literal
  | read hx hcomp => exact .read hx (hcomp.tail hc)
  | returned hcall hf hcomp => exact .returned hcall hf (hcomp.tail hc)

/-- **The type of an expression comes from the expression.** -/
theorem origin_of_hasType (h : Γ.HasType e t) : Γ.Origin e t := by
  induction e using Expr.induction_children generalizing t with
  | step e ih =>
    have hchild : ∀ {a u}, a ∈ e.children → Γ.HasType a u → Γ.Origin e u :=
      fun ha hu => (ih _ ha hu).child ha
    cases h with
    | const => exact .literal (Expr.mem_nodes_self _)
    | var _ => exact .read (Expr.mem_nodes_self _) .refl
    | @binary _ op _ _ _ _ _ hl _ hjoins =>
      have hleft := hchild (by simp [Expr.children]) hl
      -- only arithmetic hands on the type of its operands
      generalize op.family = family at hjoins
      cases hjoins with
      | arithmetic w => exact hleft
      | _ => exact .bool
    | not _ => exact .bool
    | get ha hs => exact (hchild (by simp [Expr.children]) ha).inner hs.contains
    | set ha _ _ => exact hchild (by simp [Expr.children]) ha
    | deref hp => exact (hchild (by simp [Expr.children]) hp).inner .pointee
    | call hf _ => exact .returned (Expr.mem_nodes_self _) hf .refl

/-- Every node that inference leaves of an expression is what it leaves of a node, whose type it has
found. -/
theorem exists_of_mem_nodes_infer {n : Expr} (h : (Γ.infer e).result = .ok t)
    (hn : n ∈ (Γ.infer e).node.nodes) :
    ∃ a ∈ e.nodes, ∃ u, (Γ.infer a).result = .ok u ∧ n = (Γ.infer a).node := by
  induction e using Expr.induction_children generalizing t with
  | step e ih =>
    rw [Expr.nodes_eq] at hn
    rcases List.mem_cons.mp hn with rfl | hn
    · exact ⟨e, Expr.mem_nodes_self e, t, h, rfl⟩
    · rw [node_infer_of_ok h, Expr.children_record, Expr.children_mapChildren] at hn
      obtain ⟨b', hb', hn⟩ := Expr.mem_nodesIn.mp hn
      obtain ⟨b, hb, rfl⟩ := List.mem_map.mp hb'
      obtain ⟨v, hv⟩ := exists_infer_of_child h b hb
      obtain ⟨a, ha, u, hu, hnode⟩ := ih b hb hv hn
      exact ⟨a, Expr.mem_nodes_of_child hb ha, u, hu, hnode⟩

/-- What is recorded comes from the expression, too. -/
theorem origin_of_mem_nodes_infer {n : Expr} (h : (Γ.infer e).result = .ok t)
    (hn : n ∈ (Γ.infer e).node.nodes) : ∃ u, n.slot = some u ∧ Γ.Origin e u := by
  obtain ⟨a, ha, u, hu, rfl⟩ := exists_of_mem_nodes_infer h hn
  refine ⟨u, slot_node_infer_of_ok hu, ?_⟩
  exact (origin_of_hasType (infer_eq_ok_iff.mp hu)).mono fun m hm => Expr.mem_nodes_trans hm ha

/-- The variables that are read in the expression have types that were built, and so do the results
of the functions that are called in it. -/
structure BuiltIn (Γ : Context) (e : Expr) : Prop where
  read : ∀ s x, .var s x ∈ e.nodes → x.ty.Built
  returned : ∀ s name args params ret, .call s name args ∈ e.nodes →
    Γ.signatures.find? name = some ⟨params, .value ret⟩ → ret.Built

/-- **From types that were built come types that were built.** -/
theorem Origin.built (h : Γ.Origin e t) (hbuilt : Γ.BuiltIn e) : t.Built := by
  cases h with
  | bool => exact .bool
  | literal _ => exact Ty.built_literal _
  | read hx hcomp => exact (hbuilt.read _ _ hx).component hcomp
  | returned hcall hf hcomp => exact (hbuilt.returned _ _ _ _ _ hcall hf).component hcomp

/--
**Inference invents no types.**

The type of an expression and the types that are recorded in its nodes are `Bool`, types of its
literals, or components of the types of the variables that it reads and of the results of the
functions that it calls. If these types were built, every struct that can be reached from an
inferred or a recorded type has an exact index, and selectors are resolved exactly on it.
-/
theorem infer_invents_no_type (Γ : Context) (e : Expr) (t : Ty)
    (h : (Γ.infer e).result = .ok t) :
    Γ.Origin e t ∧
      (∀ n ∈ (Γ.infer e).node.nodes, ∃ u, n.slot = some u ∧ Γ.Origin e u) ∧
      (Γ.BuiltIn e → ∀ u, (u = t ∨ ∃ n ∈ (Γ.infer e).node.nodes, n.slot = some u) →
        ∀ v, u.Component v → v.Indexed ∧ v.ResolvesExactly) := by
  have hroot := origin_of_hasType (infer_eq_ok_iff.mp h)
  refine ⟨hroot, fun n hn => origin_of_mem_nodes_infer h hn, ?_⟩
  intro hbuilt u hu v hv
  have horigin : Γ.Origin e u := by
    rcases hu with rfl | ⟨n, hn, hslot⟩
    · exact hroot
    · obtain ⟨u', hslot', horigin⟩ := origin_of_mem_nodes_infer h hn
      rw [hslot] at hslot'
      cases hslot'
      exact horigin
  have hv := (horigin.built hbuilt).component hv
  exact ⟨hv.indexed, hv.resolvesExactly⟩

/-- The record that the pointer refers to is recorded in a node of the sum. It comes from the type
of the pointer, and its fields are found exactly. -/
theorem recordSum_invents_no_type :
    (recordContext.infer recordSum).result = .ok (.int .w32) ∧
      recordContext.Origin recordSum (.int .w32) ∧ recordContext.BuiltIn recordSum ∧
      (∃ n ∈ (recordContext.infer recordSum).node.nodes, n.slot = some recordTy) ∧
      recordContext.Origin recordSum recordTy ∧ recordTy.Indexed ∧ recordTy.ResolvesExactly := by
  have hfields : ∀ field ∈ [("flag", Ty.bool), ("items", .array (.int .w8) 2)], field.2.Built :=
    List.forall_mem_cons.mpr ⟨.bool, List.forall_mem_singleton.mpr (.array 2 (.int .w8))⟩
  have hrecord : recordTy.Built := .struct hfields rfl
  have hbuilt : recordContext.BuiltIn recordSum := by
    constructor
    · intro s x hx
      simp [recordSum, Expr.nodes, Expr.nodesIn] at hx
      rcases hx with ⟨-, rfl⟩ | ⟨-, rfl⟩ | ⟨-, rfl⟩
      · exact .int .w32
      · exact .pointer hrecord
      · exact .int .w32
    · intro s name args params ret hcall hf
      simp [recordSum, Expr.nodes, Expr.nodesIn] at hcall
      obtain ⟨-, rfl, -⟩ := hcall
      cases hf
      exact .int .w32
  have hok : (recordContext.infer recordSum).result = .ok (.int .w32) := rfl
  have hnode : ∃ n ∈ (recordContext.infer recordSum).node.nodes, n.slot = some recordTy :=
    ⟨_, List.mem_of_getElem? (i := 5) rfl, rfl⟩
  obtain ⟨hroot, hnodes, hexact⟩ := infer_invents_no_type recordContext recordSum (.int .w32) hok
  refine ⟨hok, hroot, hbuilt, hnode, ?_, hexact hbuilt recordTy (Or.inr hnode) recordTy .refl⟩
  obtain ⟨n, hn, hslot⟩ := hnode
  obtain ⟨u, hu, horigin⟩ := hnodes n hn
  rw [hslot] at hu
  cases hu
  exact horigin

end Context

end BlockLang
