import BlockLang.Symbol.Table
import Mathlib.Algebra.Group.Nat.Defs

/-!
# How far numbers identify symbols

All symbols of a process get their numbers from one supply of 32-bit words. This module follows the
supply through any sequence of requests to any number of tables, refused ones among them.

* `toNat_number_of_issued` — the symbol that is issued as the `k`-th one after another has the
  number `k`, counted modulo `2 ^ 32`;
* `same_issued_iff` — so two issues give one variable exactly when their positions are congruent,
  and the first `2 ^ 32` symbols of a process are different variables;
* `first_issued_again` — the next one is the first one again, whatever its table, name and type.
-/

namespace BlockLang

/-! ## Requests -/

/-- What tables are asked for. -/
inductive Request where
  /-- A new table is opened. -/
  | openTable
  /-- The table at the position is asked for a symbol. -/
  | declare (position : Nat) (name : String) (ty : Ty)

/-- The name and the type of the symbol that is asked for. -/
def Request.symbol? : Request → Option (String × Ty)
  | openTable => none
  | declare _ name ty => some (name, ty)

namespace Registry

/-- Serves one request. A refused one changes nothing. -/
def serve (registry : Registry) : Request → Option Symbol × Registry
  | .openTable => (none, registry.openTable)
  | .declare position name ty =>
    match registry.declare? position name ty with
    | some (.ok (x, next)) => (some x, next)
    | _ => (none, registry)

/-- The symbols that are issued when requests are served one after another. -/
def issued (registry : Registry) : List Request → List Symbol
  | [] => []
  | r :: rs => (registry.serve r).1.toList ++ (registry.serve r).2.issued rs

variable {registry : Registry}

/-! ## One request -/

theorem serve_declare_of_valid {position : Nat} {name : String} {ty : Ty} {table : SymbolTable}
    (ht : registry.tables[position]? = some table) (hname : Ident.check .variable name = .ok ()) :
    registry.serve (.declare position name ty) =
      (some ⟨⟨registry.supply.next⟩, name, ty⟩,
        ⟨⟨registry.supply.next + 1⟩, registry.tables.set position ⟨table.issued + 1⟩⟩) := by
  have hdeclare : registry.declare? position name ty =
      some (.ok (⟨⟨registry.supply.next⟩, name, ty⟩,
        ⟨⟨registry.supply.next + 1⟩, registry.tables.set position ⟨table.issued + 1⟩⟩)) := by
    rw [declare?, ht, Option.map_some, SymbolTable.declare, hname]
    rfl
  simp only [serve, hdeclare]

/-- **What a request can do.** It opens a table, or it is refused and changes nothing, or it takes
the next number for a symbol, which counts for one table. -/
theorem serve_cases (registry : Registry) (request : Request) :
    registry.serve request = (none, registry.openTable) ∨
    registry.serve request = (none, registry) ∨
    ∃ position name ty table, registry.serve request =
      (some ⟨⟨registry.supply.next⟩, name, ty⟩,
        ⟨⟨registry.supply.next + 1⟩, registry.tables.set position table⟩) := by
  cases request with
  | openTable => exact Or.inl rfl
  | declare position name ty =>
    cases ht : registry.tables[position]? with
    | none =>
      refine Or.inr (Or.inl ?_)
      simp only [serve, declare?, ht, Option.map_none]
    | some table =>
      cases hname : Ident.check .variable name with
      | error d =>
        have hdeclare : registry.declare? position name ty = some (.error d) := by
          rw [declare?, ht, Option.map_some, SymbolTable.declare, hname]
          rfl
        refine Or.inr (Or.inl ?_)
        simp only [serve, hdeclare]
      | ok _ => exact Or.inr (Or.inr ⟨position, name, ty, _, serve_declare_of_valid ht hname⟩)

/-! ## All requests -/

theorem issued_cons {r : Request} {rs : List Request} {found : Option Symbol} {next : Registry}
    (h : registry.serve r = (found, next)) :
    registry.issued (r :: rs) = found.toList ++ next.issued rs := by
  rw [issued, h]

/-- **Numbers are given out one after another, modulo `2 ^ 32`.** -/
theorem toNat_number_of_issued {requests : List Request} {k : Nat} {x : Symbol}
    (h : (registry.issued requests)[k]? = some x) :
    x.id.number.toNat = (registry.supply.next.toNat + k) % 2 ^ 32 := by
  induction requests generalizing registry k with
  | nil => cases h
  | cons r rs ih =>
    rcases serve_cases registry r with hr | hr | ⟨position, name, ty, table, hr⟩
    · rw [issued_cons hr] at h
      have hsupply : registry.openTable.supply = registry.supply := rfl
      rw [← hsupply]
      exact ih h
    · rw [issued_cons hr] at h
      exact ih h
    · rw [issued_cons hr] at h
      cases k with
      | zero =>
        cases h
        rw [Nat.add_zero, Nat.mod_eq_of_lt registry.supply.next.toNat_lt]
      | succ k =>
        -- the rest counts on from the next word, which may be zero again
        have hx : x.id.number.toNat = ((registry.supply.next + 1).toNat + k) % 2 ^ 32 := ih h
        have hnext : (registry.supply.next + 1).toNat =
            (registry.supply.next.toNat + 1) % 2 ^ 32 := UInt32.toNat_add _ _
        omega

/-- Two issues give one variable exactly when a multiple of `2 ^ 32` issues lies between them. -/
theorem same_iff_of_issued {requests : List Request} {i j : Nat} {x y : Symbol}
    (hx : (registry.issued requests)[i]? = some x) (hy : (registry.issued requests)[j]? = some y) :
    x.same y = true ↔ i % 2 ^ 32 = j % 2 ^ 32 := by
  have hi := toNat_number_of_issued hx
  have hj := toNat_number_of_issued hy
  have hsame : x.same y = true ↔ x.id.number.toNat = y.id.number.toNat := by
    rw [Symbol.same, beq_iff_eq, SymbolId.mk.injEq, UInt32.toNat_inj]
  rw [hsame, hi, hj]
  omega

/--
**Symbols are identified by their numbers as long as the words last.**

Whatever tables are opened from the start of the process on and whatever they are asked for, in any
order and with refused requests among them: two symbols are one variable exactly when the positions
at which they were issued are congruent modulo `2 ^ 32`. In particular all symbols are different
variables as long as at most `2 ^ 32` have been issued.
-/
theorem same_issued_iff (requests : List Request) :
    (∀ i j x y, (issued {} requests)[i]? = some x → (issued {} requests)[j]? = some y →
      (x.same y = true ↔ i % 2 ^ 32 = j % 2 ^ 32)) ∧
    ((issued {} requests).length ≤ 2 ^ 32 →
      (issued {} requests).Pairwise fun x y => x.same y = false) := by
  constructor
  · intro i j x y hx hy
    exact same_iff_of_issued hx hy
  · intro hlen
    rw [List.pairwise_iff_getElem]
    intro i j hi hj hij
    have hsame := same_iff_of_issued (List.getElem?_eq_getElem hi) (List.getElem?_eq_getElem hj)
    rw [Bool.eq_false_iff, ne_eq, hsame]
    omega

/-- Two tables issue a symbol of one name each, and one of them refuses another name in between. -/
def interleaved : List Request :=
  [.openTable, .openTable, .declare 0 "a" .bool, .declare 1 "A" .bool, .declare 1 "a" .bool]

theorem interleaved_same_iff :
    (issued {} interleaved)[0]? = some ⟨⟨0⟩, "a", .bool⟩ ∧
      (issued {} interleaved)[1]? = some ⟨⟨1⟩, "a", .bool⟩ ∧
      (Symbol.same ⟨⟨0⟩, "a", .bool⟩ ⟨⟨1⟩, "a", .bool⟩ = true ↔ 0 % 2 ^ 32 = 1 % 2 ^ 32) ∧
      (issued {} interleaved).length ≤ 2 ^ 32 ∧
      (issued {} interleaved).Pairwise fun x y => x.same y = false := by
  have hx : (issued {} interleaved)[0]? = some ⟨⟨0⟩, "a", .bool⟩ := rfl
  have hy : (issued {} interleaved)[1]? = some ⟨⟨1⟩, "a", .bool⟩ := rfl
  have hlen : (issued {} interleaved).length ≤ 2 ^ 32 := by decide
  exact ⟨hx, hy, (same_issued_iff interleaved).1 0 1 _ _ hx hy, hlen,
    (same_issued_iff interleaved).2 hlen⟩

/-! ## When the words are used up -/

/-- The request cannot be refused. -/
def Admits (registry : Registry) : Request → Prop
  | .openTable => True
  | .declare position name _ =>
    position < registry.tables.length ∧ Ident.check .variable name = .ok ()

/-- No table is ever closed. -/
theorem length_tables_serve (registry : Registry) (request : Request) :
    registry.tables.length ≤ (registry.serve request).2.tables.length := by
  rcases serve_cases registry request with hr | hr | ⟨position, name, ty, table, hr⟩
  · simp [hr, openTable]
  · simp [hr]
  · simp [hr]

theorem Admits.serve {r : Request} (h : registry.Admits r) (request : Request) :
    (registry.serve request).2.Admits r := by
  cases r with
  | openTable => trivial
  | declare position name ty =>
    exact ⟨Nat.lt_of_lt_of_le h.1 (length_tables_serve registry request), h.2⟩

/-- Where nothing can be refused, all symbols that are asked for are issued, in order. -/
theorem map_issued_of_admits {requests : List Request} (h : ∀ r ∈ requests, registry.Admits r) :
    (registry.issued requests).map (fun x => (x.name, x.ty)) =
      requests.filterMap Request.symbol? := by
  induction requests generalizing registry with
  | nil => rfl
  | cons r rs ih =>
    have hadmits : ∀ q ∈ rs, (registry.serve r).2.Admits q :=
      fun q hq => (h q (List.mem_cons_of_mem r hq)).serve r
    have hrs := ih hadmits
    rw [issued, List.map_append, hrs]
    cases r with
    | openTable => rfl
    | declare position name ty =>
      obtain ⟨hpos, hname⟩ := h _ List.mem_cons_self
      rw [serve_declare_of_valid (List.getElem?_eq_getElem hpos) hname]
      rfl

/-- Two tables are opened; the first is asked for so many truth values, the second for a number. -/
def truthsThenNumber (count : Nat) : List Request :=
  .openTable :: .openTable ::
    (List.replicate count (.declare 0 "a" .bool) ++ [.declare 1 "b" (.int .w64)])

theorem map_issued_truthsThenNumber (count : Nat) :
    (issued {} (truthsThenNumber count)).map (fun x => (x.name, x.ty)) =
      List.replicate count ("a", .bool) ++ [("b", .int .w64)] := by
  have hadmits : ∀ r ∈ List.replicate count (.declare 0 "a" .bool) ++ [.declare 1 "b" (.int .w64)],
      (openTable (openTable {})).Admits r := by
    intro r hr
    rcases List.mem_append.mp hr with hr | hr
    · obtain rfl := List.eq_of_mem_replicate hr
      exact ⟨by decide, rfl⟩
    · obtain rfl := List.mem_singleton.mp hr
      exact ⟨by decide, rfl⟩
  have hissued := map_issued_of_admits hadmits
  have hsymbol : Request.symbol? (.declare 0 "a" .bool) = some ("a", .bool) := rfl
  rw [List.filterMap_append, List.filterMap_replicate_of_some hsymbol] at hissued
  exact hissued

theorem exists_issued_truthsThenNumber {count : Nat} (h : 0 < count) :
    ∃ x y, (issued {} (truthsThenNumber count))[0]? = some x ∧
      (issued {} (truthsThenNumber count))[count]? = some y ∧
      (x.name, x.ty) = ("a", .bool) ∧ (y.name, y.ty) = ("b", .int .w64) := by
  have hfirst : ((issued {} (truthsThenNumber count)).map fun x => (x.name, x.ty))[0]? =
      some ("a", .bool) := by
    simp [map_issued_truthsThenNumber, h]
  have hlast : ((issued {} (truthsThenNumber count)).map fun x => (x.name, x.ty))[count]? =
      some ("b", .int .w64) := by
    simp [map_issued_truthsThenNumber]
  rw [List.getElem?_map, Option.map_eq_some_iff] at hfirst hlast
  obtain ⟨x, hx, hxa⟩ := hfirst
  obtain ⟨y, hy, hyb⟩ := hlast
  exact ⟨x, y, hx, hy, hxa, hyb⟩

/-- **The symbol after the first `2 ^ 32` is the first one again**, although it comes from another
table and has another name and another type. -/
theorem first_issued_again :
    ∃ x y, (issued {} (truthsThenNumber (2 ^ 32)))[0]? = some x ∧
      (issued {} (truthsThenNumber (2 ^ 32)))[2 ^ 32]? = some y ∧
      (x.name, x.ty) = ("a", .bool) ∧ (y.name, y.ty) = ("b", .int .w64) ∧ x.same y = true := by
  obtain ⟨x, y, hx, hy, hxa, hyb⟩ := exists_issued_truthsThenNumber (Nat.two_pow_pos 32)
  -- by the law for all runs: nothing has to count up to `2 ^ 32`
  exact ⟨x, y, hx, hy, hxa, hyb, (same_iff_of_issued hx hy).mpr (by decide)⟩

end Registry

end BlockLang
