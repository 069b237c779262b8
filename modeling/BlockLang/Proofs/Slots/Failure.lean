import BlockLang.Proofs.Typing.Fault

/-!
# What a bad verdict leaves

When inference fails, types that were recorded before the failure stay recorded, so fresh types and
old ones stand side by side in one tree. Which is which follows from where the visit stopped: at the
end of a path from the root there is a node at fault, and

* the nodes on the path fail, with the same error, and keep what their slots held;
* what lies to the left of the path has been visited, as have those children of the last node that
  come before the failure of its rule (`Precedes`), and holds the type that it has;
* everything else keeps what its slot held.

The order in which the children of a node are visited is the order in which they stand; how many of
them come before the failure of the node itself is `Expr.childrenSeen`.

`Proofs/Typing/Fault.lean` describes one failing node (`infer_error_step`). The statement about the
whole tree, `infer_error_leaves_exactly`, follows by induction along the path.
-/

namespace BlockLang

/-! ## Paths -/

/-- The node that a path leads to. Each number on the path picks a child. -/
def Expr.at? : Expr → List Nat → Option Expr
  | e, [] => some e
  | e, i :: path => e.children[i]?.bind fun a => a.at? path

/-- The first path leads to a node that is visited before the visit fails at the end of the second:
it turns off to the left, or goes on to one of the first `count` children of the last node. -/
inductive Precedes (count : Nat) : List Nat → List Nat → Prop
  | left {i j : Nat} {q path : List Nat} : i < j → Precedes count (i :: q) (j :: path)
  | along {i : Nat} {q path : List Nat} :
      Precedes count q path → Precedes count (i :: q) (i :: path)
  | child {i : Nat} {q : List Nat} : i < count → Precedes count (i :: q) []

namespace Expr

variable {e a b : Expr} {i : Nat} {q : List Nat}

theorem at?_cons_of_child (hb : e.children[i]? = some b) : e.at? (i :: q) = b.at? q := by
  rw [at?, hb, Option.bind_some]

theorem at?_cons_eq_some_iff :
    e.at? (i :: q) = some a ↔ ∃ b, e.children[i]? = some b ∧ b.at? q = some a := by
  rw [at?, Option.bind_eq_some_iff]

end Expr

namespace Precedes

variable {count : Nat} {q path : List Nat}

/-- The nodes on the path itself are not visited before it ends. -/
theorem not_of_prefix (h : q <+: path) : ¬ Precedes count q path := by
  intro hp
  induction hp with
  | left hlt =>
    obtain ⟨rfl, -⟩ := List.cons_prefix_cons.mp h
    exact Nat.lt_irrefl _ hlt
  | along _ ih => exact ih (List.cons_prefix_cons.mp h).2
  | child _ => cases List.prefix_nil.mp h

end Precedes

namespace Context

variable {Γ : Context} {e a : Expr} {t : Ty} {err : TypeError} {q : List Nat}

/-! ## Nodes that have been visited, and nodes that have not -/

/-- Every node of an expression that has a type holds its own type afterwards. -/
theorem at?_node_infer_of_ok (h : (Γ.infer e).result = .ok t) (ha : e.at? q = some a) :
    ∃ left u, (Γ.infer e).node.at? q = some left ∧ (Γ.infer a).result = .ok u ∧
      left.slot = some u := by
  induction q generalizing e t with
  | nil =>
    cases ha
    exact ⟨_, t, rfl, h, slot_node_infer_of_ok h⟩
  | cons i q ih =>
    obtain ⟨b, hb, ha⟩ := Expr.at?_cons_eq_some_iff.mp ha
    obtain ⟨u, hu⟩ := exists_infer_of_child h b (List.mem_of_getElem? hb)
    have hleft : (Γ.infer e).node.children[i]? = some (Γ.infer b).node := by
      rw [node_infer_of_ok h, Expr.children_record, Expr.children_mapChildren, List.getElem?_map,
        hb, Option.map_some]
    rw [Expr.at?_cons_of_child hleft]
    exact ih hu ha

theorem getElem?_visitFirst {es : List Expr} {count i : Nat} :
    (Γ.visitFirst count es)[i]? =
      es[i]?.map fun b => if i < count then (Γ.infer b).node else b := by
  induction es generalizing count i with
  | nil => simp [visitFirst]
  | cons b es ih =>
    cases count with
    | zero => simp [visitFirst]
    | succ count =>
      have hcons : Γ.visitFirst (count + 1) (b :: es) =
          (Γ.infer b).node :: Γ.visitFirst count es := rfl
      cases i with
      | zero => simp [hcons]
      | succ i => simp [hcons, ih]

/-- Below the children that have been visited, inference has been; below the others all is as it
was. -/
theorem at?_cons_node_infer {count i : Nat} {b : Expr} (h : Γ.LeftAfter e count)
    (hb : e.children[i]? = some b) :
    (Γ.infer e).node.at? (i :: q) =
      if i < count then (Γ.infer b).node.at? q else b.at? q := by
  have hchild : (Γ.infer e).node.children[i]? =
      some (if i < count then (Γ.infer b).node else b) := by
    rw [h.children, getElem?_visitFirst, hb, Option.map_some]
  rw [Expr.at?_cons_of_child hchild]
  split <;> rfl

/-! ## The path to the failure -/

/-- The visit of `e` fails at the end of the path, where the node `n` is at fault. -/
structure StopsAt (Γ : Context) (e : Expr) (err : TypeError) (path : List Nat) (n : Expr) :
    Prop where
  node : e.at? path = some n
  fault : Γ.ExprFault n err
  /-- The nodes on the path fail. -/
  above : ∀ q, q <+: path → ∃ a, e.at? q = some a ∧ (Γ.infer a).result = .error err
  /-- What was visited before holds its own type. -/
  recorded : ∀ q a, e.at? q = some a → Precedes (n.childrenSeen err) q path →
    ∃ left t, (Γ.infer e).node.at? q = some left ∧ (Γ.infer a).result = .ok t ∧
      left.slot = some t
  /-- The rest is as it was. -/
  kept : ∀ q a, e.at? q = some a → ¬ Precedes (n.childrenSeen err) q path →
    ∃ left, (Γ.infer e).node.at? q = some left ∧ left.slot = a.slot

/-- A node that is at fault ends the path. -/
theorem stopsAt_nil (he : (Γ.infer e).result = .error err) (hfault : Γ.ExprFault e err)
    (htyped : Γ.TypedFirst (e.childrenSeen err) e.children)
    (hleft : Γ.LeftAfter e (e.childrenSeen err)) : Γ.StopsAt e err [] e where
  node := rfl
  fault := hfault
  above := by
    intro q hq
    rw [List.prefix_nil.mp hq]
    exact ⟨e, rfl, he⟩
  recorded := by
    intro q a ha hp
    cases hp with
    | child hi =>
      obtain ⟨b, hb, ha⟩ := Expr.at?_cons_eq_some_iff.mp ha
      obtain ⟨t, ht⟩ := exists_infer_of_typedFirst htyped hi hb
      rw [at?_cons_node_infer hleft hb, if_pos hi]
      exact at?_node_infer_of_ok ht ha
  kept := by
    intro q a ha hp
    cases q with
    | nil =>
      cases ha
      exact ⟨_, rfl, hleft.slot⟩
    | cons i q =>
      obtain ⟨b, hb, ha⟩ := Expr.at?_cons_eq_some_iff.mp ha
      rw [at?_cons_node_infer hleft hb, if_neg fun hi => hp (.child hi)]
      exact ⟨a, ha, rfl⟩

/-- A node that fails in its `j`-th child lies on the path, and the path goes on there. -/
theorem StopsAt.cons {j : Nat} {path : List Nat} {n : Expr} (h : Γ.StopsAt a err path n)
    (he : (Γ.infer e).result = .error err) (hj : e.children[j]? = some a)
    (htyped : Γ.TypedFirst j e.children) (hleft : Γ.LeftAfter e (j + 1)) :
    Γ.StopsAt e err (j :: path) n where
  node := by
    rw [Expr.at?_cons_of_child hj]
    exact h.node
  fault := h.fault
  above := by
    intro q hq
    rcases List.prefix_cons_iff.mp hq with rfl | ⟨r, rfl, hr⟩
    · exact ⟨e, rfl, he⟩
    · rw [Expr.at?_cons_of_child hj]
      exact h.above r hr
  recorded := by
    intro q c hc hp
    cases hp with
    | left hi =>
      obtain ⟨b, hb, hc⟩ := Expr.at?_cons_eq_some_iff.mp hc
      obtain ⟨t, ht⟩ := exists_infer_of_typedFirst htyped hi hb
      rw [at?_cons_node_infer hleft hb, if_pos (Nat.lt_succ_of_lt hi)]
      exact at?_node_infer_of_ok ht hc
    | along hp =>
      rw [Expr.at?_cons_of_child hj] at hc
      rw [at?_cons_node_infer hleft hj, if_pos (Nat.lt_succ_self j)]
      exact h.recorded _ c hc hp
  kept := by
    intro q c hc hp
    cases q with
    | nil =>
      cases hc
      exact ⟨_, rfl, hleft.slot⟩
    | cons i q =>
      rcases Nat.lt_trichotomy i j with hi | rfl | hi
      · exact absurd (.left hi) hp
      · rw [Expr.at?_cons_of_child hj] at hc
        rw [at?_cons_node_infer hleft hj, if_pos (Nat.lt_succ_self i)]
        exact h.kept q c hc fun hq => hp (.along hq)
      · -- the children behind have not been reached
        obtain ⟨b, hb, hc⟩ := Expr.at?_cons_eq_some_iff.mp hc
        rw [at?_cons_node_infer hleft hb, if_neg (by omega)]
        exact ⟨c, hc, rfl⟩

/-- Where a failing inference stops. -/
theorem exists_stopsAt (h : (Γ.infer e).result = .error err) :
    ∃ path n, Γ.StopsAt e err path n := by
  induction e using Expr.induction_children with
  | step e ih =>
    rcases infer_error_step h with ⟨j, ⟨htyped, a, hj, ha⟩, -, hleft⟩ | ⟨hfault, htyped, hleft⟩
    · obtain ⟨path, n, hstop⟩ := ih a (List.mem_of_getElem? hj) ha
      exact ⟨j :: path, n, hstop.cons h hj htyped hleft⟩
    · exact ⟨[], e, stopsAt_nil h hfault htyped hleft⟩

/-! ## What is left of the tree -/

/--
**What a failing inference leaves.**

The tree is the same apart from its slots. There is a path to a node at fault; the nodes on the path
fail with the error and keep their slots, the nodes visited before hold the types that they have,
and all others keep their slots.
-/
theorem infer_error_leaves_exactly (Γ : Context) (e : Expr) (err : TypeError)
    (h : (Γ.infer e).result = .error err) :
    (Γ.infer e).node.bare = e.bare ∧
      ∃ path n, e.at? path = some n ∧ Γ.ExprFault n err ∧
        (∀ q, q <+: path → ∃ a left, e.at? q = some a ∧ (Γ.infer e).node.at? q = some left ∧
          (Γ.infer a).result = .error err ∧ left.slot = a.slot) ∧
        ∀ q a, e.at? q = some a → ∃ left, (Γ.infer e).node.at? q = some left ∧
          (Precedes (n.childrenSeen err) q path →
            ∃ t, (Γ.infer a).result = .ok t ∧ left.slot = some t) ∧
          (¬ Precedes (n.childrenSeen err) q path → left.slot = a.slot) := by
  obtain ⟨path, n, hstop⟩ := exists_stopsAt h
  refine ⟨bare_node_infer e, path, n, hstop.node, hstop.fault, ?_, ?_⟩
  · intro q hq
    obtain ⟨a, ha, hfail⟩ := hstop.above q hq
    obtain ⟨left, hleft, hslot⟩ := hstop.kept q a ha (Precedes.not_of_prefix hq)
    exact ⟨a, left, ha, hleft, hfail, hslot⟩
  · intro q a ha
    by_cases hp : Precedes (n.childrenSeen err) q path
    · obtain ⟨left, t, hleft, ht, hslot⟩ := hstop.recorded q a ha hp
      exact ⟨left, hleft, fun _ => ⟨t, ht, hslot⟩, fun hn => absurd hp hn⟩
    · obtain ⟨left, hleft, hslot⟩ := hstop.kept q a ha hp
      exact ⟨left, hleft, fun hq => absurd hq hp, fun _ => hslot⟩

/-- The call `f((*p){wrong := 7}, true)`, added to `x`, with given slots of `x`, `*p` and `p`.
All other slots hold an old type. -/
def unresolvedSum (number target pointer : Option Ty) : Expr :=
  .binary (some .bool) .add (.var number ⟨⟨0⟩, "x", .int .w32⟩) <| .call (some .bool) "f"
    [.set (some .bool) (.deref target (.var pointer ⟨⟨1⟩, "p", .pointer recordTy⟩)) (.name "wrong")
      (.const (some (.int .w64)) (.int .w8 7)), .const (some (.int .w64)) (.bool true)]

/-- The record has no such field: the replacement and the argument behind it are not visited. -/
theorem unresolvedSum_leaves_exactly :
    let e := unresolvedSum none (some .bool) none
    let err := TypeError.unknownField recordTy "wrong"
    (recordContext.infer e).result = .error err ∧
      (recordContext.infer e).node =
        unresolvedSum (some (.int .w32)) (some recordTy) (some (.pointer recordTy)) ∧
      (∃ path n, e.at? path = some n ∧ recordContext.ExprFault n err) ∧
      ∀ q a, e.at? q = some a → ∃ left, (recordContext.infer e).node.at? q = some left ∧
        ((∃ t, recordContext.HasType a t ∧ left.slot = some t) ∨ left.slot = a.slot) := by
  intro e err
  have hfail : (recordContext.infer e).result = .error err := rfl
  obtain ⟨-, path, n, hn, hfault, -, hslots⟩ := infer_error_leaves_exactly recordContext e err hfail
  refine ⟨hfail, rfl, ⟨path, n, hn, hfault⟩, fun q a ha => ?_⟩
  obtain ⟨left, hleft, hrecorded, hkept⟩ := hslots q a ha
  refine ⟨left, hleft, ?_⟩
  by_cases hp : Precedes (n.childrenSeen err) q path
  · obtain ⟨t, ht, hslot⟩ := hrecorded hp
    exact Or.inl ⟨t, infer_eq_ok_iff.mp ht, hslot⟩
  · exact Or.inr (hkept hp)

end Context

end BlockLang
