import BlockLang.Proofs.Typing.Rule
import BlockLang.Ty.Build
import Mathlib.Data.List.Nodup

/-!
# The index of a struct

A struct keeps an index of its field names beside its fields. The index is filled while the struct
is built, one name after the other, and is never compared: two structs with the same fields are
equal whatever their indices hold. Here the two are shown to say the same.

* `Exact.insert` — entering a new name keeps an index exact, that is, it then knows the names that
  were entered, each at its position, and nothing else;
* `enter_cases` — so entering a list either ends with an exact index, or stops at the first name
  that repeats an earlier one;
* `ofFields_indexes_exactly` — building a struct succeeds exactly when the names differ, and the
  index then finds exactly the positions of the fields.
-/

namespace BlockLang

/-! ## Names that repeat earlier ones -/

/-- The name at the position stands further left, too. -/
def RepeatsAt (names : List String) (i : Nat) : Prop :=
  ∃ name, names[i]? = some name ∧ name ∈ names.take i

/-- The name at the position is the first that repeats an earlier one. -/
def FirstRepeat (names : List String) (i : Nat) (name : String) : Prop :=
  names[i]? = some name ∧ RepeatsAt names i ∧ ∀ j < i, ¬ RepeatsAt names j

/-- Names differ exactly when none of them repeats an earlier one. -/
theorem nodup_iff_not_repeatsAt {names : List String} :
    names.Nodup ↔ ∀ i, ¬ RepeatsAt names i := by
  constructor
  · rintro hnodup i ⟨name, hi, hmem⟩
    obtain ⟨j, hj, hname⟩ := List.mem_iff_getElem.mp hmem
    rw [List.length_take] at hj
    rw [List.getElem_take] at hname
    obtain ⟨hlt, hget⟩ := List.getElem?_eq_some_iff.mp hi
    have hij : j = i := (List.Nodup.getElem_inj_iff hnodup).mp (hname.trans hget.symm)
    omega
  · intro h
    rw [List.nodup_iff_getElem?_ne_getElem?]
    intro i j hij hj he
    refine h j ⟨names[j], List.getElem?_eq_getElem hj, ?_⟩
    rw [List.getElem?_eq_getElem hj] at he
    refine List.mem_iff_getElem?.mpr ⟨i, ?_⟩
    rw [List.getElem?_take_of_lt hij]
    exact he

/-- There is at most one first repetition. -/
theorem FirstRepeat.unique {names : List String} {i j : Nat} {m n : String}
    (hi : FirstRepeat names i m) (hj : FirstRepeat names j n) : m = n := by
  have hij : i = j := by
    rcases Nat.lt_trichotomy i j with hlt | he | hlt
    · exact absurd hi.2.1 (hj.2.2 i hlt)
    · exact he
    · exact absurd hj.2.1 (hi.2.2 j hlt)
  subst hij
  exact Option.some.inj (hi.1.symm.trans hj.1)

/-- Behind names that differ, one of them once more is the first repetition. -/
theorem firstRepeat_of_nodup {seen behind : List String} {name : String} (hnodup : seen.Nodup)
    (hmem : name ∈ seen) : FirstRepeat (seen ++ name :: behind) seen.length name := by
  have hget : (seen ++ name :: behind)[seen.length]? = some name := by simp
  refine ⟨hget, ⟨name, hget, by simpa using hmem⟩, ?_⟩
  rintro j hj ⟨m, hm, hbefore⟩
  refine nodup_iff_not_repeatsAt.mp hnodup j ⟨m, ?_, ?_⟩
  · rwa [List.getElem?_append_left hj] at hm
  · rwa [List.take_append_of_le_length (Nat.le_of_lt hj)] at hbefore

/-! ## Filling the index -/

namespace FieldIndex

variable {index larger : FieldIndex} {names : List String} {name : String} {d : Defect}

/-- The index knows these names, each at its position, and no others. -/
def Exact (index : FieldIndex) (names : List String) : Prop :=
  ∀ name i, index.find? name = some i ↔ names[i]? = some name

theorem exact_empty : Exact {} [] := by
  intro name i
  simp [find?]

/-- Only names that differ have an exact index, as a name has one position. -/
theorem Exact.nodup (h : index.Exact names) : names.Nodup := by
  rw [nodup_iff_not_repeatsAt]
  rintro i ⟨name, hi, hmem⟩
  obtain ⟨j, hj⟩ := List.mem_iff_getElem?.mp hmem
  obtain ⟨hlt, -⟩ := List.getElem?_eq_some_iff.mp hj
  rw [List.length_take] at hlt
  rw [List.getElem?_take_of_lt (by omega)] at hj
  have hfound := (h name j).mpr hj
  rw [(h name i).mpr hi] at hfound
  cases hfound
  omega

theorem Exact.find?_eq_none_iff (h : index.Exact names) :
    index.find? name = none ↔ name ∉ names := by
  constructor
  · intro hnone hmem
    obtain ⟨i, hi⟩ := List.mem_iff_getElem?.mp hmem
    rw [(h name i).mpr hi] at hnone
    cases hnone
  · intro hnot
    refine Option.eq_none_iff_forall_ne_some.mpr fun i hi => ?_
    exact hnot (List.mem_of_getElem? ((h name i).mp hi))

theorem find?_insert (index : FieldIndex) (name other : String) (position : Nat) :
    (index.insert name position).2.find? other =
      if other = name then some position else index.find? other := by
  rw [insert, find?, List.lookup_cons]
  by_cases h : other = name
  · simp [h]
  · rw [beq_eq_false_iff_ne.mpr h, if_neg h]
    rfl

/-- **Entering a new name behind the others keeps the index exact.** -/
theorem Exact.insert (h : index.Exact names) (hname : name ∉ names) :
    (index.insert name names.length).2.Exact (names ++ [name]) := by
  intro other i
  rw [find?_insert]
  by_cases hother : other = name
  · subst hother
    rw [if_pos rfl]
    constructor
    · intro hi
      cases hi
      simp
    · intro hi
      rcases Nat.lt_trichotomy i names.length with hlt | rfl | hgt
      · rw [List.getElem?_append_left hlt] at hi
        exact absurd (List.mem_of_getElem? hi) hname
      · rfl
      · rw [List.getElem?_eq_none (by simp; omega)] at hi
        cases hi
  · rw [if_neg hother, h]
    rcases Nat.lt_or_ge i names.length with hlt | hge
    · rw [List.getElem?_append_left hlt]
    · rw [List.getElem?_append_right hge, List.getElem?_eq_none hge]
      constructor
      · intro hi
        cases hi
      · intro hi
        have hmem := List.mem_singleton.mp (List.mem_of_getElem? hi)
        exact absurd hmem hother

/-- A new name is entered, and a known one ends the entering. -/
theorem enter_cons (h : index.Exact names) (behind : List String) :
    (name ∉ names ∧ index.enter names.length (name :: behind) =
      (index.insert name names.length).2.enter (names ++ [name]).length behind) ∨
    (name ∈ names ∧ index.enter names.length (name :: behind) =
      .error (.duplicateField name)) := by
  cases hfound : index.find? name with
  | none =>
    refine Or.inl ⟨h.find?_eq_none_iff.mp hfound, ?_⟩
    rw [enter, insert, hfound, List.length_append, List.length_singleton]
  | some i =>
    refine Or.inr ⟨List.mem_of_getElem? ((h name i).mp hfound), ?_⟩
    rw [enter, insert, hfound]

/-- **Entering names ends with an exact index, or at the first that repeats an earlier one.** -/
theorem enter_cases (h : index.Exact names) (behind : List String) :
    (∃ larger, index.enter names.length behind = .ok larger ∧ larger.Exact (names ++ behind)) ∨
    ∃ seen name rest, behind = seen ++ name :: rest ∧ (names ++ seen).Nodup ∧
      name ∈ names ++ seen ∧ index.enter names.length behind = .error (.duplicateField name) := by
  induction behind generalizing index names with
  | nil => exact Or.inl ⟨index, rfl, by rwa [List.append_nil]⟩
  | cons name behind ih =>
    rcases enter_cons h behind with ⟨hnew, hstep⟩ | ⟨hknown, hstep⟩
    · have hsplit : names ++ name :: behind = (names ++ [name]) ++ behind :=
        List.append_cons names name behind
      rw [hstep, hsplit]
      -- the name counts as entered from here on, so the index stays exact for what is behind it
      rcases ih (h.insert hnew) with hdone | ⟨seen, other, rest, rfl, hnodup, hmem, herror⟩
      · exact Or.inl hdone
      · rw [List.append_assoc] at hnodup hmem
        exact Or.inr ⟨name :: seen, other, rest, rfl, hnodup, hmem, herror⟩
    · exact Or.inr ⟨[], name, behind, rfl, by simpa using h.nodup, by simpa using hknown, hstep⟩

end FieldIndex

/-! ## Structs -/

namespace StructTy

variable {fields : List (String × Ty)} {s : StructTy} {d : Defect}

/-- The field at a position bears a name exactly when the list of names has it there. -/
theorem getElem?_names_eq_some_iff {i : Nat} {name : String} :
    (fields.map Prod.fst)[i]? = some name ↔ ∃ t, fields[i]? = some (name, t) := by
  rw [List.getElem?_map, Option.map_eq_some_iff]
  constructor
  · rintro ⟨⟨_, t⟩, hi, rfl⟩
    exact ⟨t, hi⟩
  · rintro ⟨t, hi⟩
    exact ⟨_, hi, rfl⟩

/-- **A struct is built with an exact index, or refused for the first repeated name.** -/
theorem ofFields_cases (fields : List (String × Ty)) :
    (∃ s, ofFields fields = .ok s ∧ s.fields = fields ∧
      s.index.Exact (fields.map Prod.fst)) ∨
    ∃ i name, ofFields fields = .error (.duplicateField name) ∧
      FirstRepeat (fields.map Prod.fst) i name := by
  rcases FieldIndex.enter_cases FieldIndex.exact_empty (fields.map Prod.fst) with
    ⟨index, hok, hexact⟩ | ⟨seen, name, rest, hsplit, hnodup, hmem, herror⟩
  · refine Or.inl ⟨⟨fields, index⟩, ?_, rfl, by simpa using hexact⟩
    rw [ofFields, ← List.length_nil, hok]
    rfl
  · refine Or.inr ⟨seen.length, name, ?_, ?_⟩
    · rw [ofFields, ← List.length_nil, herror]
      rfl
    · rw [hsplit]
      exact firstRepeat_of_nodup (by simpa using hnodup) (by simpa using hmem)

theorem fields_index_of_ofFields (h : ofFields fields = .ok s) :
    s.fields = fields ∧ s.index.Exact (fields.map Prod.fst) := by
  rcases ofFields_cases fields with ⟨s', hok, hfields⟩ | ⟨i, name, herror, -⟩
  · rw [h] at hok
    cases hok
    exact hfields
  · rw [h] at herror
    cases herror

theorem ofFields_eq_error_iff : ofFields fields = .error d ↔
    ∃ i name, FirstRepeat (fields.map Prod.fst) i name ∧ d = .duplicateField name := by
  rcases ofFields_cases fields with ⟨s, hok, -, hexact⟩ | ⟨i, name, herror, hfirst⟩
  · rw [hok]
    constructor
    · intro h
      cases h
    · rintro ⟨i, name, hfirst, -⟩
      exact absurd hfirst.2.1 (nodup_iff_not_repeatsAt.mp hexact.nodup i)
  · rw [herror]
    constructor
    · intro h
      cases h
      exact ⟨i, name, hfirst, rfl⟩
    · rintro ⟨j, other, hother, rfl⟩
      rw [hfirst.unique hother]

theorem exists_ofFields_iff : (∃ s, ofFields fields = .ok s) ↔ (fields.map Prod.fst).Nodup := by
  rcases ofFields_cases fields with ⟨s, hok, -, hexact⟩ | ⟨i, name, herror, hfirst⟩
  · exact ⟨fun _ => hexact.nodup, fun _ => ⟨s, hok⟩⟩
  · constructor
    · rintro ⟨s, hok⟩
      rw [herror] at hok
      cases hok
    · intro hnodup
      exact absurd hfirst.2.1 (nodup_iff_not_repeatsAt.mp hnodup i)

/-- **The index finds a name exactly at the positions of the fields that bear it.** -/
theorem fieldIndex?_eq_some_iff (h : ofFields fields = .ok s) {name : String} {i : Nat} :
    s.fieldIndex? name = some i ↔ ∃ t, fields[i]? = some (name, t) := by
  rw [fieldIndex?, (fields_index_of_ofFields h).2 name i, getElem?_names_eq_some_iff]

/-- Looking a name up in the index of a struct gives what searching its fields gives. -/
theorem fieldIndex?_eq_search (h : ofFields fields = .ok s) (name : String) :
    s.fieldIndex? name = Ty.fieldIndex? name fields := by
  have hnodup : (fields.map Prod.fst).Nodup := (fields_index_of_ofFields h).2.nodup
  ext i
  rw [fieldIndex?_eq_some_iff h, Ty.fieldIndex?_eq_some_iff]
  constructor
  · rintro ⟨t, hi⟩
    refine ⟨⟨t, hi⟩, ?_⟩
    rintro j hj ⟨other, u⟩ hfield rfl
    refine nodup_iff_not_repeatsAt.mp hnodup i ⟨_, getElem?_names_eq_some_iff.mpr ⟨t, hi⟩, ?_⟩
    refine List.mem_iff_getElem?.mpr ⟨j, ?_⟩
    rw [List.getElem?_take_of_lt hj]
    exact getElem?_names_eq_some_iff.mpr ⟨u, hfield⟩
  · rintro ⟨⟨t, hi⟩, -⟩
    exact ⟨t, hi⟩

/--
**The index of a struct is exact.**

A struct can be built exactly when its field names differ; otherwise the name at the first position
that repeats an earlier one is refused. A struct that was built has the given fields in order, and
its index finds a name at a position exactly when the field at that position bears the name, which
is also what a search in the fields finds. So structs with the same fields have the same index on
every name, although equality does not look at it.
-/
theorem ofFields_indexes_exactly (fields : List (String × Ty)) :
    ((∃ s, ofFields fields = .ok s) ↔ (fields.map Prod.fst).Nodup) ∧
      (∀ d, ofFields fields = .error d ↔
        ∃ i name, FirstRepeat (fields.map Prod.fst) i name ∧ d = .duplicateField name) ∧
      (∀ s, ofFields fields = .ok s → s.fields = fields ∧
        (∀ name i, s.fieldIndex? name = some i ↔ ∃ t, fields[i]? = some (name, t)) ∧
        ∀ name, s.fieldIndex? name = Ty.fieldIndex? name fields) ∧
      ∀ fields' s s', ofFields fields = .ok s → ofFields fields' = .ok s' → s.same s' = true →
        ∀ name, s.fieldIndex? name = s'.fieldIndex? name := by
  refine ⟨exists_ofFields_iff, fun d => ofFields_eq_error_iff, ?_, ?_⟩
  · intro s hs
    exact ⟨(fields_index_of_ofFields hs).1, fun name i => fieldIndex?_eq_some_iff hs,
      fieldIndex?_eq_search hs⟩
  · intro fields' s s' hs hs' hsame name
    have hfields : s.fields = s'.fields := (Ty.sameFields_iff _ _).mp hsame
    rw [(fields_index_of_ofFields hs).1, (fields_index_of_ofFields hs').1] at hfields
    rw [fieldIndex?_eq_search hs, fieldIndex?_eq_search hs', hfields]

/-- A field without a name, and two fields whose names look alike and are different texts. -/
def lookalikes : List (String × Ty) :=
  [("", .bool), ("\u00e9", .int .w8), ("e\u0301", .array (.int .w8) 0)]

/-- The fields make a struct whose index finds the third at its position. With the second and the
first once more behind them, they are refused for the second. -/
theorem lookalikes_index_exactly :
    (∃ s, ofFields lookalikes = .ok s ∧ s.fields = lookalikes ∧
        s.fieldIndex? "e\u0301" = some 2 ∧ s.fieldIndex? "e" = none) ∧
      ofFields (lookalikes ++ [("\u00e9", .bool), ("", .bool)]) =
        .error (.duplicateField "\u00e9") := by
  constructor
  · obtain ⟨hbuilt, -, hindex, -⟩ := ofFields_indexes_exactly lookalikes
    obtain ⟨s, hs⟩ := hbuilt.mpr (by decide)
    obtain ⟨hfields, hiff, hsearch⟩ := hindex s hs
    exact ⟨s, hs, hfields, (hiff _ 2).mpr ⟨_, rfl⟩, (hsearch "e").trans (by decide)⟩
  · have hfirst : FirstRepeat (lookalikes.map Prod.fst ++ "\u00e9" :: [""]) 3 "\u00e9" :=
      firstRepeat_of_nodup (by decide) (by decide)
    exact ((ofFields_indexes_exactly _).2.1 _).mpr ⟨3, "\u00e9", hfirst, rfl⟩

end StructTy

end BlockLang
