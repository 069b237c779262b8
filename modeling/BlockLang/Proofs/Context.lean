import BlockLang.Typing.Context

/-!
# Contexts with more variables

`Context.declare` refuses a variable that is there already. `Context.add` is the total operation
beside it: it adds the variable if it is missing and does nothing otherwise. With it, what is known
further down in a program can be written as one context, `Γ.addAll xs`, and the declaring operations
are read as a test followed by an addition:

* `declare_of_declares`, `declare_of_not_declares` — declaring is `add`, unless the variable is
  declared;
* `declareParams_eq_ok_iff` — parameters are accepted exactly when they are pairwise distinct and
  new, and are all added then;
* `size_addAll_of_fresh` — such variables are counted one by one;
* `exists_of_declareParams_error` — a refused parameter stands twice or was declared before.
-/

namespace BlockLang

/-! ## Scopes -/

namespace Scope

/-- The scope with a variable in it, whether or not it was there before. -/
def add (scope : Scope) (x : Symbol) : Scope := (scope.insert? x).getD scope

theorem contains_iff {scope : Scope} {x : Symbol} :
    scope.contains x = true ↔ x.id ∈ scope.ids := by
  rw [contains, decide_eq_true_iff]

theorem insert?_eq_none {scope : Scope} {x : Symbol} (h : x.id ∈ scope.ids) :
    scope.insert? x = none := by
  rw [insert?, dif_pos h]

theorem insert?_eq_add {scope : Scope} {x : Symbol} (h : x.id ∉ scope.ids) :
    scope.insert? x = some (scope.add x) := by
  have hs : scope.insert? x = some ⟨x.id :: scope.ids, List.nodup_cons.mpr ⟨h, scope.nodup⟩⟩ := by
    rw [insert?, dif_neg h]
  rw [add, hs, Option.getD_some]

/-- After an addition the variable is there, and the others as before. -/
theorem mem_ids_add {scope : Scope} {x : Symbol} {i : SymbolId} :
    i ∈ (scope.add x).ids ↔ i = x.id ∨ i ∈ scope.ids := by
  by_cases h : x.id ∈ scope.ids
  · have hs : scope.add x = scope := by rw [add, insert?_eq_none h, Option.getD_none]
    rw [hs]
    constructor
    · exact Or.inr
    · rintro (rfl | hi)
      · exact h
      · exact hi
  · rw [ids_insert? (insert?_eq_add h), List.mem_cons]

end Scope

/-! ## Contexts -/

namespace Context

variable {Γ Δ : Context} {x y : Symbol} {xs ys : List Symbol}

/-- A variable is declared. Only its identity counts. -/
def Declares (Γ : Context) (x : Symbol) : Prop := x.id ∈ Γ.scope.ids

instance (Γ : Context) (x : Symbol) : Decidable (Γ.Declares x) :=
  inferInstanceAs (Decidable (x.id ∈ Γ.scope.ids))

/-- The context with one more variable. -/
def add (Γ : Context) (x : Symbol) : Context := { Γ with scope := Γ.scope.add x }

/-- The context with more variables, added from left to right. -/
def addAll (Γ : Context) (xs : List Symbol) : Context := xs.foldl add Γ

@[simp] theorem signatures_add : (Γ.add x).signatures = Γ.signatures := rfl

@[simp] theorem returns_add : (Γ.add x).returns = Γ.returns := rfl

@[simp] theorem addAll_nil : Γ.addAll [] = Γ := rfl

@[simp] theorem addAll_cons : Γ.addAll (x :: xs) = (Γ.add x).addAll xs := rfl

theorem addAll_append : Γ.addAll (xs ++ ys) = (Γ.addAll xs).addAll ys := List.foldl_append

@[simp] theorem signatures_addAll : (Γ.addAll xs).signatures = Γ.signatures := by
  induction xs generalizing Γ with
  | nil => rfl
  | cons x xs ih => rw [addAll_cons, ih, signatures_add]

@[simp] theorem returns_addAll : (Γ.addAll xs).returns = Γ.returns := by
  induction xs generalizing Γ with
  | nil => rfl
  | cons x xs ih => rw [addAll_cons, ih, returns_add]

theorem declares_add : (Γ.add x).Declares y ↔ y.id = x.id ∨ Γ.Declares y := Scope.mem_ids_add

/-- **What is declared after additions is what was added and what was declared before.** -/
theorem declares_addAll :
    (Γ.addAll xs).Declares y ↔ y.id ∈ xs.map Symbol.id ∨ Γ.Declares y := by
  induction xs generalizing Γ with
  | nil =>
    rw [addAll_nil, List.map_nil]
    exact ⟨Or.inr, fun h => h.resolve_left List.not_mem_nil⟩
  | cons x xs ih =>
    rw [addAll_cons, ih, declares_add, List.map_cons, List.mem_cons]
    constructor
    · rintro (h | h | h)
      · exact Or.inl (Or.inr h)
      · exact Or.inl (Or.inl h)
      · exact Or.inr h
    · rintro ((h | h) | h)
      · exact Or.inr (Or.inl h)
      · exact Or.inl h
      · exact Or.inr (Or.inr h)

/-- A new variable makes the scope larger by one. -/
theorem size_add_of_not_declares (h : ¬ Γ.Declares x) :
    (Γ.add x).scope.size = Γ.scope.size + 1 :=
  Scope.size_insert? (Scope.insert?_eq_add h)

/-! ## Declaring and looking up -/

theorem declare_of_declares (h : Γ.Declares x) : Γ.declare x = .error (.redeclared x.name) := by
  rw [declare, Scope.insert?_eq_none h]

theorem declare_of_not_declares (h : ¬ Γ.Declares x) : Γ.declare x = .ok (Γ.add x) := by
  rw [declare, Scope.insert?_eq_add h]
  rfl

theorem typeOf_of_declares (h : Γ.Declares x) : Γ.typeOf x = .ok x.ty := by
  rw [typeOf, if_pos (Scope.contains_iff.mpr h)]

theorem typeOf_of_not_declares (h : ¬ Γ.Declares x) :
    Γ.typeOf x = .error (.undeclaredVariable x.name) := by
  rw [typeOf, if_neg (fun hc => h (Scope.contains_iff.mp hc))]

/-! ## Parameters -/

/-- The parameters are pairwise distinct variables, none of which is declared. -/
def Fresh (Γ : Context) (params : List Symbol) : Prop :=
  (params.map Symbol.id).Nodup ∧ ∀ x ∈ params, ¬ Γ.Declares x

theorem fresh_nil : Γ.Fresh [] := ⟨List.nodup_nil, by simp⟩

/-- The first parameter has to be new, and the others are taken with it declared. -/
theorem fresh_cons : Γ.Fresh (x :: xs) ↔ ¬ Γ.Declares x ∧ (Γ.add x).Fresh xs := by
  rw [Fresh, Fresh, List.map_cons, List.nodup_cons, List.forall_mem_cons]
  constructor
  · rintro ⟨⟨hx, hnd⟩, hnew, hrest⟩
    refine ⟨hnew, hnd, ?_⟩
    intro y hy hd
    rcases declares_add.mp hd with he | hd
    · exact hx (he ▸ List.mem_map_of_mem hy)
    · exact hrest y hy hd
  · rintro ⟨hnew, hnd, hrest⟩
    refine ⟨⟨?_, hnd⟩, hnew, fun y hy hd => hrest y hy (declares_add.mpr (Or.inr hd))⟩
    intro hx
    obtain ⟨y, hy, he⟩ := List.mem_map.mp hx
    exact hrest y hy (declares_add.mpr (Or.inl he))

/-- Variables that are new one after the other are new together. -/
theorem fresh_append :
    Γ.Fresh (xs ++ ys) ↔ Γ.Fresh xs ∧ (Γ.addAll xs).Fresh ys := by
  induction xs generalizing Γ with
  | nil => exact ⟨fun h => ⟨fresh_nil, h⟩, fun h => h.2⟩
  | cons x xs ih => rw [List.cons_append, fresh_cons, fresh_cons, ih, addAll_cons, and_assoc]

/-- New variables that are pairwise distinct are counted one by one. -/
theorem size_addAll_of_fresh (h : Γ.Fresh xs) :
    (Γ.addAll xs).scope.size = Γ.scope.size + xs.length := by
  induction xs generalizing Γ with
  | nil => rfl
  | cons x xs ih =>
    obtain ⟨hx, hxs⟩ := fresh_cons.mp h
    rw [addAll_cons, ih hxs, size_add_of_not_declares hx, List.length_cons]
    omega

theorem declareParams_cons_of_declares (h : Γ.Declares x) :
    Γ.declareParams (x :: xs) = .error (.duplicateParameter x.name) := by
  rw [declareParams, if_pos (Scope.contains_iff.mpr h)]

/-- A parameter that was asked for before is declared without an error. -/
theorem declareParams_cons_of_not_declares (h : ¬ Γ.Declares x) :
    Γ.declareParams (x :: xs) = (Γ.add x).declareParams xs := by
  rw [declareParams, if_neg (fun hc => h (Scope.contains_iff.mp hc)), declare_of_not_declares h]

/-- **Parameters are accepted exactly when they are fresh, and are all added then.** -/
theorem declareParams_eq_ok_iff :
    Γ.declareParams xs = .ok Δ ↔ Γ.Fresh xs ∧ Δ = Γ.addAll xs := by
  induction xs generalizing Γ with
  | nil =>
    rw [declareParams, addAll_nil, Except.ok.injEq]
    exact ⟨fun h => ⟨fresh_nil, h.symm⟩, fun h => h.2.symm⟩
  | cons x xs ih =>
    rw [fresh_cons, addAll_cons]
    by_cases h : Γ.Declares x
    · rw [declareParams_cons_of_declares h]
      exact ⟨fun hc => absurd hc (by simp), fun hc => absurd h hc.1.1⟩
    · rw [declareParams_cons_of_not_declares h, ih]
      exact ⟨fun hc => ⟨⟨h, hc.1⟩, hc.2⟩, fun hc => ⟨hc.1.2, hc.2⟩⟩

/-- **A refused parameter is equal to an earlier one or was declared before.** -/
theorem exists_of_declareParams_error {e : TypeError} (h : Γ.declareParams xs = .error e) :
    ∃ pre x post, xs = pre ++ x :: post ∧ e = .duplicateParameter x.name ∧
      ((∃ y ∈ pre, y.id = x.id) ∨ Γ.Declares x) := by
  induction xs generalizing Γ with
  | nil => rw [declareParams] at h; exact absurd h (by simp)
  | cons x xs ih =>
    by_cases hx : Γ.Declares x
    · rw [declareParams_cons_of_declares hx] at h
      exact ⟨[], x, xs, rfl, (Except.error.inj h).symm, Or.inr hx⟩
    · rw [declareParams_cons_of_not_declares hx] at h
      obtain ⟨pre, z, post, hxs, he, hz⟩ := ih h
      refine ⟨x :: pre, z, post, by rw [hxs, List.cons_append], he, ?_⟩
      rcases hz with ⟨y, hy, hid⟩ | hd
      · exact Or.inl ⟨y, List.mem_cons_of_mem x hy, hid⟩
      · rcases declares_add.mp hd with hid | hd
        · exact Or.inl ⟨x, List.mem_cons_self, hid.symm⟩
        · exact Or.inr hd

end Context

end BlockLang
