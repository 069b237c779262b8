import BlockLang.Proofs.Ty.Index

/-!
# Resolving selectors

A selector is resolved against a type in two places: where trees are put together (`Ty.select`,
which answers with a structural defect) and where they are typed (`Ty.elementAt`, which answers with
a typing error and says more precisely what is missing). On types that were built they find the same
elements, and exactly the ones that the type has (`resolution_exact`).

`Ty.Selects` says what a selector picks on any type, the first field of a name where there are
several. `Ty.HasElement` leaves this out: a type that was built has no two fields of one name, by
what is known of its index (`Proofs/Ty/Index.lean`).
-/

namespace BlockLang

namespace Ty

/-! ## Types that were built -/

/-- The type was built by the constructors, none of which refused. -/
inductive Built : Ty → Prop
  | bool : Built .bool
  | int (w : IntWidth) : Built (.int w)
  | float (w : FloatWidth) : Built (.float w)
  | array {element : Ty} (length : Nat) : Built element → Built (.array element length)
  | struct {fields : List (String × Ty)} {t : Ty} :
      (∀ field ∈ fields, Built field.2) → ofFields fields = .ok t → Built t
  | pointer {pointee : Ty} : Built pointee → Built (.pointer pointee)

variable {t u : Ty} {fields : List (String × Ty)} {f : Selector} {i : Nat} {e e' : TypeError}

theorem ofFields_eq_ok_iff :
    ofFields fields = .ok t ↔ (∃ s, StructTy.ofFields fields = .ok s) ∧ t = .struct fields := by
  rw [ofFields]
  cases hs : StructTy.ofFields fields with
  | error d => simp [Except.map]
  | ok s =>
    rw [Except.map, (StructTy.fields_index_of_ofFields hs).1, Except.ok.injEq]
    exact ⟨fun h => ⟨⟨s, rfl⟩, h.symm⟩, fun h => h.2.symm⟩

/-- A struct type that was built has an index. -/
theorem Built.exists_structTy (h : (Ty.struct fields).Built) :
    ∃ s, StructTy.ofFields fields = .ok s := by
  cases h with
  | struct _ hbuilt =>
    obtain ⟨hs, he⟩ := ofFields_eq_ok_iff.mp hbuilt
    cases he
    exact hs

/-! ## Elements -/

/-- The type has the element at the position, and the selector names it: an array by the position, a
struct by the position or by the name of the field there. -/
def HasElement (t : Ty) (f : Selector) (i : Nat) (u : Ty) : Prop :=
  (∃ length, t = .array u length ∧ f = .index i ∧ i < length) ∨
    ∃ fields name, t = .struct fields ∧ fields[i]? = some (name, u) ∧
      (f = .index i ∨ f = .name name)

/-- Of a type that was built, a selector picks the element that it names. -/
theorem Built.selects_iff (h : t.Built) : t.Selects f i u ↔ t.HasElement f i u := by
  constructor
  · intro hs
    cases hs with
    | item hi => exact Or.inl ⟨_, rfl, rfl, hi⟩
    | position hi => exact Or.inr ⟨_, _, rfl, hi, Or.inl rfl⟩
    | field hi _ => exact Or.inr ⟨_, _, rfl, hi, Or.inr rfl⟩
  · rintro (⟨length, rfl, rfl, hi⟩ | ⟨fields, name, rfl, hi, rfl | rfl⟩)
    · exact .item hi
    · exact .position hi
    · obtain ⟨s, hs⟩ := h.exists_structTy
      have hfound : s.fieldIndex? name = some i :=
        (StructTy.fieldIndex?_eq_some_iff hs).mpr ⟨u, hi⟩
      rw [StructTy.fieldIndex?_eq_search hs] at hfound
      exact .field hi (fieldIndex?_eq_some_iff.mp hfound).2

/-- Both ways of resolving a selector ask for the same element. -/
theorem select_eq_ok_iff : t.select f = .ok (i, u) ↔ t.Selects f i u := by
  rw [← element?_eq_some_iff, select]
  cases t.element? f with
  | none => simp
  | some found => simp

theorem select_eq_error_iff {d : Defect} :
    t.select f = .error d ↔ d = .noElement t f ∧ ∀ i u, ¬ t.Selects f i u := by
  simp only [← element?_eq_some_iff]
  rw [select]
  cases t.element? f with
  | none => simp [eq_comm]
  | some found =>
    obtain ⟨i, u⟩ := found
    simp

/-! ## Errors -/

/-- A position that is picked is below the number of elements. -/
theorem lt_of_selects_index {count j : Nat} (hc : t.elementCount? = some count)
    (hs : t.Selects (.index j) i u) : j < count := by
  cases hs with
  | item hi =>
    cases hc
    exact hi
  | position hi =>
    cases hc
    exact (List.getElem?_eq_some_iff.mp hi).1

theorem isAggregate_of_elementCount? {count : Nat} (hc : t.elementCount? = some count) :
    t.isAggregate = true := by
  rw [← isSome_elementCount?, hc]
  rfl

theorem Lacks.not_selects (h : t.Lacks f e) : ¬ t.Selects f i u := by
  intro hs
  obtain ⟨count, hcount⟩ := elementCount?_of_selects hs
  cases h with
  | notAggregate hagg =>
    rw [isAggregate_of_elementCount? hcount] at hagg
    cases hagg
  | outOfBounds hc hle => exact Nat.not_lt.mpr hle (lt_of_selects_index hc hs)
  | unknownField _ hnone => exact hnone _ _ hs

/-- There is one reason for which a selector picks nothing. -/
theorem Lacks.unique (h : t.Lacks f e) (h' : t.Lacks f e') : e = e' := by
  cases h with
  | notAggregate hagg =>
    cases h' with
    | notAggregate _ => rfl
    | outOfBounds hc _ => simp [isAggregate_of_elementCount? hc] at hagg
    | unknownField hagg' _ => simp [hagg'] at hagg
  | outOfBounds hc hle =>
    cases h' with
    | notAggregate hagg => simp [isAggregate_of_elementCount? hc] at hagg
    | outOfBounds hc' _ =>
      rw [hc] at hc'
      cases hc'
      rfl
  | unknownField hagg _ =>
    cases h' with
    | notAggregate hagg' => simp [hagg] at hagg'
    | unknownField _ _ => rfl

/-- **Typing refuses a selector exactly when it picks nothing, and says why.** -/
theorem elementAt_eq_error_iff : t.elementAt f = .error e ↔ t.Lacks f e := by
  refine ⟨lacks_of_elementAt_error, fun h => ?_⟩
  cases hfound : t.elementAt f with
  | error e' => rw [h.unique (lacks_of_elementAt_error hfound)]
  | ok found => exact absurd (elementAt_eq_ok_iff.mp hfound) h.not_selects

theorem Built.lacks_iff (h : t.Built) : t.Lacks f e ↔
    (t.isAggregate = false ∧ e = .notAggregate t) ∨
    (∃ i count, f = .index i ∧ t.elementCount? = some count ∧ count ≤ i ∧
      e = .outOfBounds t i count) ∨
    ∃ name, f = .name name ∧ t.isAggregate = true ∧ (∀ i u, ¬ t.HasElement f i u) ∧
      e = .unknownField t name := by
  constructor
  · intro hl
    cases hl with
    | notAggregate hagg => exact Or.inl ⟨hagg, rfl⟩
    | outOfBounds hc hle => exact Or.inr (Or.inl ⟨_, _, rfl, hc, hle, rfl⟩)
    | unknownField hagg hnone =>
      exact Or.inr (Or.inr ⟨_, rfl, hagg, fun i u hu => hnone i u (h.selects_iff.mpr hu), rfl⟩)
  · rintro (⟨hagg, rfl⟩ | ⟨i, count, rfl, hc, hle, rfl⟩ | ⟨name, rfl, hagg, hnone, rfl⟩)
    · exact .notAggregate hagg
    · exact .outOfBounds hc hle
    · exact .unknownField hagg fun i u hu => hnone i u (h.selects_iff.mp hu)

/-! ## Both resolutions -/

/--
**Selectors are resolved exactly, and alike in both places.**

Of a type that was built, a selector picks exactly the element that it names, and so a field is the
same under its name and at the position that the name is found at. Typing finds what construction
finds. Where nothing is found, construction says so; typing says that the type has no elements, that
the position is not below their number, or that no field has the name. The index of a struct gives
the position that the search gives, and it is the position of a field.
-/
theorem resolution_exact (t : Ty) (h : t.Built) :
    (∀ f i u, t.select f = .ok (i, u) ↔ t.HasElement f i u) ∧
      (∀ f i u, t.elementAt f = .ok (i, u) ↔ t.select f = .ok (i, u)) ∧
      (∀ f e, t.elementAt f = .error e ↔
        (t.isAggregate = false ∧ e = .notAggregate t) ∨
        (∃ i count, f = .index i ∧ t.elementCount? = some count ∧ count ≤ i ∧
          e = .outOfBounds t i count) ∨
        ∃ name, f = .name name ∧ t.isAggregate = true ∧ (∀ i u, ¬ t.HasElement f i u) ∧
          e = .unknownField t name) ∧
      (∀ f d, t.select f = .error d ↔ d = .noElement t f ∧ ∀ i u, ¬ t.HasElement f i u) ∧
      (∀ name i u, t.select (.name name) = .ok (i, u) → t.select (.index i) = .ok (i, u)) ∧
      ∀ fields, t = .struct fields → ∃ s, StructTy.ofFields fields = .ok s ∧
        (∀ name, s.fieldIndex? name = fieldIndex? name fields) ∧
        ∀ name i, s.fieldIndex? name = some i → i < fields.length := by
  have hselect : ∀ f i u, t.select f = .ok (i, u) ↔ t.HasElement f i u := by
    intro f i u
    rw [select_eq_ok_iff, h.selects_iff]
  refine ⟨hselect, ?_, ?_, ?_, ?_, ?_⟩
  · intro f i u
    rw [elementAt_eq_ok_iff, select_eq_ok_iff]
  · intro f e
    rw [elementAt_eq_error_iff, h.lacks_iff]
  · intro f d
    simp only [select_eq_error_iff, h.selects_iff]
  · intro name i u hname
    rcases (hselect _ i u).mp hname with ⟨_, _, hf, _⟩ | ⟨fields, other, rfl, hi, _⟩
    · cases hf
    · exact (hselect _ i u).mpr (Or.inr ⟨fields, other, rfl, hi, Or.inl rfl⟩)
  · rintro fields rfl
    obtain ⟨s, hs⟩ := h.exists_structTy
    refine ⟨s, hs, StructTy.fieldIndex?_eq_search hs, fun name i hi => ?_⟩
    obtain ⟨u, hu⟩ := (StructTy.fieldIndex?_eq_some_iff hs).mp hi
    exact (List.getElem?_eq_some_iff.mp hu).1

/-- A struct of a number and an array without elements. -/
def pairTy : Ty := .struct [("a", .int .w32), ("b", .array .bool 0)]

/-- The second field is found under its name and at its position, and there is no third. Its array
has no first element and no field, and a pointer to the struct has no elements at all. -/
theorem pairTy_resolution_exact :
    pairTy.Built ∧
      pairTy.select (.name "b") = .ok (1, .array .bool 0) ∧
      pairTy.select (.index 1) = .ok (1, .array .bool 0) ∧
      pairTy.elementAt (.name "b") = .ok (1, .array .bool 0) ∧
      pairTy.elementAt (.index 2) = .error (.outOfBounds pairTy 2 2) ∧
      (Ty.array .bool 0).elementAt (.index 0) = .error (.outOfBounds (.array .bool 0) 0 0) ∧
      (Ty.array .bool 0).elementAt (.name "b") = .error (.unknownField (.array .bool 0) "b") ∧
      (Ty.pointer pairTy).elementAt (.name "b") = .error (.notAggregate (.pointer pairTy)) := by
  have harray : (Ty.array .bool 0).Built := .array 0 .bool
  have hfields : ∀ field ∈ [("a", Ty.int .w32), ("b", Ty.array .bool 0)], field.2.Built :=
    List.forall_mem_cons.mpr ⟨.int .w32, List.forall_mem_singleton.mpr harray⟩
  have hpair : pairTy.Built := .struct hfields rfl
  obtain ⟨hselect, helement, herror, -, hname, -⟩ := resolution_exact pairTy hpair
  obtain ⟨-, -, harrayError, -⟩ := resolution_exact (.array .bool 0) harray
  have hb : pairTy.select (.name "b") = .ok (1, .array .bool 0) :=
    (hselect _ _ _).mpr (Or.inr ⟨_, "b", rfl, rfl, Or.inr rfl⟩)
  refine ⟨hpair, hb, hname _ _ _ hb, (helement _ _ _).mpr hb, ?_, ?_, ?_, ?_⟩
  · exact (herror _ _).mpr (Or.inr (Or.inl ⟨2, 2, rfl, rfl, Nat.le_refl 2, rfl⟩))
  · exact (harrayError _ _).mpr (Or.inr (Or.inl ⟨0, 0, rfl, rfl, Nat.le_refl 0, rfl⟩))
  · refine (harrayError _ _).mpr (Or.inr (Or.inr ⟨"b", rfl, rfl, ?_, rfl⟩))
    rintro i u (⟨_, _, hf, _⟩ | ⟨_, _, ht, _⟩)
    · cases hf
    · cases ht
  · exact ((resolution_exact _ (.pointer hpair)).2.2.1 _ _).mpr (Or.inl ⟨rfl, rfl⟩)

end Ty

end BlockLang
