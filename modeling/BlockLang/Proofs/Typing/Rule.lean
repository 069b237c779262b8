import BlockLang.Typing.Rule

/-!
# Typing rules on types, as relations

`Typing/Rule.lean` computes the type of a node from the types of its children. Here the same rules
are written down as relations, one constructor for each way in which a rule can be met, and the
functions are shown to decide them:

* `apply_eq_ok_iff`, `apply_eq_error_iff` — `OpFamily.Joins` for operators on two operands;
* `elementAt_eq_ok_iff`, `lacks_of_elementAt_error` — `Ty.Selects` for elements of aggregates;
* `negate_eq_ok_iff`, `target_eq_ok_iff`, `expect_eq_ok_iff`, `asValue_eq_ok_iff` — the rules that
  ask for one type.
-/

namespace BlockLang

/-! ## Operators on two operands -/

/-- The family takes operands of the first two types and gives the third. -/
inductive OpFamily.Joins : OpFamily → Ty → Ty → Ty → Prop
  | arithmetic (w : IntWidth) : Joins .arithmetic (.int w) (.int w) (.int w)
  | comparison (w : IntWidth) : Joins .comparison (.int w) (.int w) .bool
  | equalInts (w : IntWidth) : Joins .equality (.int w) (.int w) .bool
  | equalBools : Joins .equality .bool .bool .bool
  | logical : Joins .logical .bool .bool .bool

/-- What a family admits is what it joins, and the result is the one it gives. -/
theorem OpFamily.joins_iff {family : OpFamily} {l r t : Ty} :
    family.Joins l r t ↔ family.admits l r = true ∧ t = family.result l := by
  constructor
  · intro h
    cases h <;> simp [admits, result, Ty.isInt, Ty.isBool]
  · rintro ⟨ha, rfl⟩
    cases family with
    | arithmetic =>
      obtain ⟨rfl, hi⟩ : l = r ∧ l.isInt = true := by simpa [admits] using ha
      obtain ⟨w, rfl⟩ := Ty.isInt_iff.mp hi
      exact .arithmetic w
    | comparison =>
      obtain ⟨rfl, hi⟩ : l = r ∧ l.isInt = true := by simpa [admits] using ha
      obtain ⟨w, rfl⟩ := Ty.isInt_iff.mp hi
      exact .comparison w
    | equality =>
      obtain ⟨rfl, hi | hb⟩ : l = r ∧ (l.isInt = true ∨ l.isBool = true) := by
        simpa [admits] using ha
      · obtain ⟨w, rfl⟩ := Ty.isInt_iff.mp hi
        exact .equalInts w
      · obtain rfl := Ty.isBool_iff.mp hb
        exact .equalBools
    | logical =>
      obtain ⟨hl, hr⟩ : l.isBool = true ∧ r.isBool = true := by simpa [admits] using ha
      obtain rfl := Ty.isBool_iff.mp hl
      obtain rfl := Ty.isBool_iff.mp hr
      exact .logical

namespace BinaryOp

variable {op : BinaryOp} {l r t : Ty} {e : TypeError}

/-- **An operator gives a type exactly when its family joins the operands to it.** -/
theorem apply_eq_ok_iff : op.apply l r = .ok t ↔ op.family.Joins l r t := by
  rw [OpFamily.joins_iff, apply]
  by_cases h : op.family.admits l r = true
  · rw [if_pos h, Except.ok.injEq]
    exact ⟨fun ht => ⟨h, ht.symm⟩, fun ht => ht.2.symm⟩
  · rw [if_neg h]
    exact ⟨fun hc => absurd hc (by simp), fun hc => absurd hc.1 h⟩

/-- **An operator refuses operands exactly when its family joins them to nothing.** -/
theorem apply_eq_error_iff :
    op.apply l r = .error e ↔ e = .incompatibleTypes op l r ∧ ∀ t, ¬ op.family.Joins l r t := by
  rw [apply]
  by_cases h : op.family.admits l r = true
  · rw [if_pos h]
    refine ⟨fun hc => absurd hc (by simp), fun hc => ?_⟩
    exact absurd (OpFamily.joins_iff.mpr ⟨h, rfl⟩) (hc.2 _)
  · rw [if_neg h, Except.error.injEq]
    exact ⟨fun he => ⟨he.symm, fun t ht => h (OpFamily.joins_iff.mp ht).1⟩, fun he => he.1.symm⟩

end BinaryOp

namespace Ty

variable {t u expected found : Ty} {selector : Selector} {e : TypeError}

/-! ## Elements -/

/-- The selector picks the element at the position, which is of the second type. Of several fields
with one name the first is meant. -/
inductive Selects : Ty → Selector → Nat → Ty → Prop
  | item {element : Ty} {length i : Nat} :
      i < length → Selects (.array element length) (.index i) i element
  | position {fields : List (String × Ty)} {i : Nat} {name : String} {t : Ty} :
      fields[i]? = some (name, t) → Selects (.struct fields) (.index i) i t
  | field {fields : List (String × Ty)} {i : Nat} {name : String} {t : Ty} :
      fields[i]? = some (name, t) →
      (∀ j < i, ∀ field, fields[j]? = some field → field.1 ≠ name) →
      Selects (.struct fields) (.name name) i t

theorem fieldIndex?_eq_some_iff {name : String} {fields : List (String × Ty)} {i : Nat} :
    fieldIndex? name fields = some i ↔
      (∃ t, fields[i]? = some (name, t)) ∧
        ∀ j < i, ∀ field, fields[j]? = some field → field.1 ≠ name := by
  rw [fieldIndex?, List.findIdx?_eq_some_iff_getElem]
  constructor
  · rintro ⟨hi, hn, hbefore⟩
    refine ⟨⟨fields[i].2, ?_⟩, ?_⟩
    · rw [List.getElem?_eq_getElem hi, ← beq_iff_eq.mp hn]
    · intro j hj field hf hne
      obtain ⟨hlt, rfl⟩ := List.getElem?_eq_some_iff.mp hf
      exact hbefore j hj (beq_iff_eq.mpr hne)
  · rintro ⟨⟨t, ht⟩, hbefore⟩
    obtain ⟨hi, hf⟩ := List.getElem?_eq_some_iff.mp ht
    refine ⟨hi, by rw [hf]; exact beq_self_eq_true name, ?_⟩
    intro j hj hn
    exact hbefore j hj _ (List.getElem?_eq_getElem (by omega)) (beq_iff_eq.mp hn)

/-- `element?` finds what is selected. -/
theorem element?_eq_some_iff {i : Nat} :
    t.element? selector = some (i, u) ↔ t.Selects selector i u := by
  constructor
  · intro h
    cases t with
    | array element length =>
      cases selector with
      | index j =>
        rw [element?] at h
        by_cases hj : j < length
        · rw [if_pos hj] at h
          cases h
          exact .item hj
        · rw [if_neg hj] at h
          cases h
      | name n => cases h
    | struct fields =>
      cases selector with
      | index j =>
        obtain ⟨field, hf, hv⟩ := Option.map_eq_some_iff.mp h
        cases hv
        exact .position hf
      | name n =>
        obtain ⟨j, hj, hrest⟩ := Option.bind_eq_some_iff.mp h
        obtain ⟨field, hf, hv⟩ := Option.map_eq_some_iff.mp hrest
        cases hv
        obtain ⟨⟨v, hn⟩, hbefore⟩ := fieldIndex?_eq_some_iff.mp hj
        rw [hf] at hn
        cases hn
        exact .field hf hbefore
    | _ => cases selector <;> cases h
  · intro h
    cases h with
    | item hi => rw [element?, if_pos hi]
    | position hf => rw [element?, hf, Option.map_some]
    | field hf hbefore =>
      rw [element?, fieldIndex?_eq_some_iff.mpr ⟨⟨_, hf⟩, hbefore⟩, Option.bind_some, hf,
        Option.map_some]

/-- Only an aggregate has elements. -/
theorem elementCount?_of_selects {i : Nat} (h : t.Selects selector i u) :
    ∃ n, t.elementCount? = some n := by
  cases h with
  | item => exact ⟨_, rfl⟩
  | position => exact ⟨_, rfl⟩
  | field => exact ⟨_, rfl⟩

/-- **An element is found exactly when it is selected.** -/
theorem elementAt_eq_ok_iff {i : Nat} :
    t.elementAt selector = .ok (i, u) ↔ t.Selects selector i u := by
  constructor
  · intro h
    refine element?_eq_some_iff.mp ?_
    rw [elementAt] at h
    split at h
    · cases h
    · split at h
      · next found hf => rw [hf, Except.ok.inj h]
      · split at h <;> cases h
  · intro h
    obtain ⟨n, hn⟩ := elementCount?_of_selects h
    rw [elementAt, hn, element?_eq_some_iff.mpr h]

/-- The selector picks nothing, for the reason that the error gives. -/
inductive Lacks : Ty → Selector → TypeError → Prop
  | notAggregate {t : Ty} {selector : Selector} :
      t.isAggregate = false → Lacks t selector (.notAggregate t)
  | outOfBounds {t : Ty} {i count : Nat} :
      t.elementCount? = some count → count ≤ i → Lacks t (.index i) (.outOfBounds t i count)
  | unknownField {t : Ty} {name : String} :
      t.isAggregate = true → (∀ i u, ¬ t.Selects (.name name) i u) →
      Lacks t (.name name) (.unknownField t name)

/-- Below the number of elements there is an element at every position. -/
theorem exists_selects_index {count i : Nat} (hc : t.elementCount? = some count) (hi : i < count) :
    ∃ u, t.Selects (.index i) i u := by
  cases t with
  | array element length =>
    cases hc
    exact ⟨element, .item hi⟩
  | struct fields =>
    cases hc
    exact ⟨fields[i].2, .position (List.getElem?_eq_getElem hi)⟩
  | _ => cases hc

/-- **A refused selector picks nothing, for the reason that the error gives.** -/
theorem lacks_of_elementAt_error (h : t.elementAt selector = .error e) : t.Lacks selector e := by
  have hnone : ∀ i u, ¬ t.Selects selector i u := by
    intro i u hs
    rw [elementAt_eq_ok_iff.mpr hs] at h
    cases h
  have hagg := isSome_elementCount? t
  rw [elementAt] at h
  split at h
  · next hc =>
    rw [hc] at hagg
    cases h
    exact .notAggregate hagg.symm
  · next count hc =>
    rw [hc] at hagg
    split at h
    · cases h
    · split at h
      · next i =>
        cases h
        refine .outOfBounds hc (Nat.le_of_not_lt fun hi => ?_)
        obtain ⟨u, hu⟩ := exists_selects_index hc hi
        exact hnone _ _ hu
      · cases h
        exact .unknownField hagg.symm hnone

/-! ## Rules that ask for one type -/

theorem negate_eq_ok_iff : t.negate = .ok u ↔ t = .bool ∧ u = .bool := by
  cases t <;> simp [negate, isBool, eq_comm]

theorem negate_eq_error_iff : t.negate = .error e ↔ t ≠ .bool ∧ e = .incompatibleOperand t := by
  cases t <;> simp [negate, isBool, eq_comm]

theorem target_eq_ok_iff : t.target = .ok u ↔ t = .pointer u := by
  cases t <;> simp [target, pointee?]

theorem target_eq_error_iff :
    t.target = .error e ↔ (∀ u, t ≠ .pointer u) ∧ e = .notPointer t := by
  cases t <;> simp [target, pointee?, eq_comm]

theorem expect_eq_ok_iff : expected.expect found = .ok () ↔ found = expected := by
  rw [expect]
  by_cases h : found = expected
  · rw [if_pos h]
    exact ⟨fun _ => h, fun _ => rfl⟩
  · rw [if_neg h]
    exact ⟨fun hc => absurd hc (by simp), fun hc => absurd hc h⟩

theorem expect_eq_error_iff :
    expected.expect found = .error e ↔ found ≠ expected ∧ e = .mismatch expected found := by
  rw [expect]
  by_cases h : found = expected
  · rw [if_pos h]
    exact ⟨fun hc => absurd hc (by simp), fun hc => absurd h hc.1⟩
  · rw [if_neg h, Except.error.injEq]
    exact ⟨fun he => ⟨h, he.symm⟩, fun he => he.2.symm⟩

end Ty

theorem ReturnTy.asValue_eq_ok_iff {ret : ReturnTy} {name : String} {t : Ty} :
    ret.asValue name = .ok t ↔ ret = .value t := by
  cases ret <;> simp [asValue]

theorem ReturnTy.asValue_eq_error_iff {ret : ReturnTy} {name : String} {e : TypeError} :
    ret.asValue name = .error e ↔ ret = .void ∧ e = .voidAsValue name := by
  cases ret <;> simp [asValue, eq_comm]

end BlockLang
