import BlockLang.Proofs.Typing.Verdict

/-!
# Places in a block

A place says where a statement stands in a block: directly, or in a block inside one of the
statements. An expression stands where its statement stands. The definitions that reach a place are
those in front of it in the same block, and in front of a statement around it in the block of that
statement (`Place.Reaches`). Nothing here is known to the checker, which goes through the tree with
one context; the two are tied together as follows:

* `mem_visibleAt_iff` — `Block.visibleAt` lists the variables whose definitions reach a place;
* `headVerdict_of_checkBlock_ok` — in an accepted block every statement is accepted in the context
  in force at its place, which is the first one with those variables added;
* `exists_place_of_checkBlock_error` — in a refused block some statement is refused there, and with
  the same error.
-/

namespace BlockLang

/-! ## Places -/

/-- Where a statement stands in a block: as the `i`-th of it, or at a place of the `k`-th block
inside the `i`-th. -/
inductive Place where
  | direct (i : Nat)
  | inside (i k : Nat) (place : Place)
deriving DecidableEq

/-- What a definition at the first place introduces is visible at the second. -/
inductive Place.Reaches : Place → Place → Prop
  | later {i j : Nat} : j < i → Reaches (.direct j) (.direct i)
  | within {i j k : Nat} {place : Place} : j < i → Reaches (.direct j) (.inside i k place)
  | inner {i k : Nat} {first second : Place} :
      Reaches first second → Reaches (.inside i k first) (.inside i k second)

namespace Block

/-- The `k`-th block inside the `i`-th statement. -/
def inner? (block : Block) (i k : Nat) : Option Block := block[i]?.bind fun s => s.blocks[k]?

/-- The statement at a place. -/
def stmtAt (block : Block) : Place → Option Stmt
  | .direct i => block[i]?
  | .inside i k place => (block.inner? i k).bind fun b => stmtAt b place

/-- The variables whose definitions reach a place, from the outside in. -/
def visibleAt (block : Block) : Place → List Symbol
  | .direct i => Block.defined (block.take i)
  | .inside i k place =>
    Block.defined (block.take i) ++ (block.inner? i k).elim [] fun b => visibleAt b place

variable {block b : Block} {s : Stmt} {x : Symbol} {i k : Nat} {place : Place}

theorem inner?_eq_some_iff :
    block.inner? i k = some b ↔ ∃ s, block[i]? = some s ∧ s.blocks[k]? = some b := by
  rw [inner?, Option.bind_eq_some_iff]

theorem stmtAt_inside_of_inner? (h : block.inner? i k = some b) :
    block.stmtAt (.inside i k place) = b.stmtAt place := by
  rw [stmtAt, h, Option.bind_some]

theorem visibleAt_inside_of_inner? (h : block.inner? i k = some b) :
    block.visibleAt (.inside i k place) = Block.defined (block.take i) ++ b.visibleAt place := by
  rw [visibleAt, h, Option.elim_some]

theorem stmtAt_inside_eq_some_iff :
    block.stmtAt (.inside i k place) = some s ↔
      ∃ b, block.inner? i k = some b ∧ b.stmtAt place = some s := by
  rw [stmtAt, Option.bind_eq_some_iff]

/-! ## Visible variables are those whose definitions reach -/

theorem mem_defined_take :
    x ∈ Block.defined (block.take i) ↔
      ∃ j < i, ∃ s, block[j]? = some s ∧ s.defines? = some x := by
  rw [defined, List.mem_filterMap]
  constructor
  · rintro ⟨s, hs, hx⟩
    obtain ⟨j, hj⟩ := List.mem_iff_getElem?.mp hs
    have hlt : j < i := by
      have hbound := (List.getElem?_eq_some_iff.mp hj).1
      rw [List.length_take] at hbound
      omega
    rw [List.getElem?_take_of_lt hlt] at hj
    exact ⟨j, hlt, s, hj, hx⟩
  · rintro ⟨j, hlt, s, hs, hx⟩
    refine ⟨s, List.mem_iff_getElem?.mpr ⟨j, ?_⟩, hx⟩
    rw [List.getElem?_take_of_lt hlt]
    exact hs

/-- **What is visible at a place is what the definitions that reach it introduce.** -/
theorem mem_visibleAt_iff :
    x ∈ block.visibleAt place ↔
      ∃ other s, block.stmtAt other = some s ∧ s.defines? = some x ∧ other.Reaches place := by
  induction place generalizing block with
  | direct i =>
    rw [visibleAt, mem_defined_take]
    constructor
    · rintro ⟨j, hlt, s, hs, hx⟩
      exact ⟨.direct j, s, hs, hx, .later hlt⟩
    · rintro ⟨other, s, hs, hx, hr⟩
      cases hr with
      | later hlt => exact ⟨_, hlt, s, hs, hx⟩
  | inside i k place ih =>
    constructor
    · intro h
      rw [visibleAt] at h
      rcases List.mem_append.mp h with h | h
      · obtain ⟨j, hlt, s, hs, hx⟩ := mem_defined_take.mp h
        exact ⟨.direct j, s, hs, hx, .within hlt⟩
      · -- where there is no such block, nothing is visible beyond the statement around
        cases hb : block.inner? i k with
        | none =>
          rw [hb] at h
          exact absurd h List.not_mem_nil
        | some b =>
          rw [hb] at h
          obtain ⟨other, s, hs, hx, hr⟩ := ih.mp h
          exact ⟨.inside i k other, s, (stmtAt_inside_of_inner? hb).trans hs, hx, .inner hr⟩
    · rintro ⟨other, s, hs, hx, hr⟩
      cases hr with
      | within hlt =>
        exact List.mem_append_left _ (mem_defined_take.mpr ⟨_, hlt, s, hs, hx⟩)
      | inner hr =>
        obtain ⟨b, hb, hs⟩ := stmtAt_inside_eq_some_iff.mp hs
        rw [visibleAt_inside_of_inner? hb]
        exact List.mem_append_right _ (ih.mpr ⟨_, s, hs, hx, hr⟩)

end Block

/-! ## The context in force at a place -/

namespace Context

variable {Γ : Context} {block : Block} {s : Stmt} {place : Place} {err : TypeError}

/-- What is known at a place of a block that is entered with a context. -/
def inForce (Γ : Context) (block : Block) (place : Place) : Context :=
  Γ.addAll (block.visibleAt place)

theorem inForce_inside {b : Block} {i k : Nat} (h : block.inner? i k = some b) :
    Γ.inForce block (.inside i k place) =
      (Γ.addAll (Block.defined (block.take i))).inForce b place := by
  rw [inForce, Block.visibleAt_inside_of_inner? h, addAll_append]
  rfl

theorem addAll_defined_take_succ {ss : List Stmt} {i : Nat} :
    Γ.addAll (Block.defined ((s :: ss).take (i + 1))) =
      (Γ.addAll s.defines?.toList).addAll (Block.defined (ss.take i)) := by
  rw [List.take_succ_cons, Block.defined_cons, addAll_append]

/-- The statements of an accepted block are accepted one by one, each with the definitions in front
of it. -/
theorem checkStmt_of_checkBlock_ok {i : Nat} (h : (Γ.checkBlock block).result = .ok ())
    (hs : block[i]? = some s) :
    ((Γ.addAll (Block.defined (block.take i))).checkStmt s).result = .ok () := by
  induction block generalizing Γ i with
  | nil =>
    rw [List.getElem?_nil] at hs
    cases hs
  | cons r rs ih =>
    obtain ⟨hr, hrs⟩ := checkBlock_cons_eq_ok_iff.mp h
    cases i with
    | zero =>
      rw [List.getElem?_cons_zero] at hs
      cases hs
      exact hr
    | succ i =>
      rw [List.getElem?_cons_succ] at hs
      rw [addAll_defined_take_succ]
      exact ih hrs hs

/-- The first statement that is refused gives its error to the block. -/
theorem exists_stmt_of_checkBlock_error (h : (Γ.checkBlock block).result = .error err) :
    ∃ (i : Nat) (s : Stmt), block[i]? = some s ∧
      ((Γ.addAll (Block.defined (block.take i))).checkStmt s).result = .error err := by
  induction block generalizing Γ with
  | nil =>
    rw [checkBlock_nil] at h
    cases h
  | cons r rs ih =>
    rcases checkBlock_cons_eq_error_iff.mp h with hr | ⟨_, hrs⟩
    · exact ⟨0, r, rfl, hr⟩
    · obtain ⟨i, s, hs, he⟩ := ih hrs
      refine ⟨i + 1, s, ?_, ?_⟩
      · rw [List.getElem?_cons_succ]
        exact hs
      · rw [addAll_defined_take_succ]
        exact he

/-- **In an accepted block every statement is accepted in the context in force at its place.** -/
theorem headVerdict_of_checkBlock_ok (h : (Γ.checkBlock block).result = .ok ())
    (hs : block.stmtAt place = some s) : (Γ.inForce block place).headVerdict s = .ok () := by
  induction place generalizing Γ block with
  | direct i =>
    have hstmt := checkStmt_of_checkBlock_ok h hs
    exact (checkStmt_eq_ok_iff.mp hstmt).1
  | inside i k place ih =>
    obtain ⟨b, hb, hs⟩ := Block.stmtAt_inside_eq_some_iff.mp hs
    obtain ⟨r, hr, hk⟩ := Block.inner?_eq_some_iff.mp hb
    -- the inner block is entered with what is known in front of the statement around it
    have hstmt := checkStmt_of_checkBlock_ok h hr
    have hblock := (checkStmt_eq_ok_iff.mp hstmt).2 b (List.mem_of_getElem? hk)
    rw [inForce_inside hb]
    exact ih hblock hs

/-- **In a refused block some statement is refused in the context in force at its place, and with
the same error.** -/
theorem exists_place_of_checkBlock_error (h : (Γ.checkBlock block).result = .error err) :
    ∃ place s, block.stmtAt place = some s ∧
      (Γ.inForce block place).headVerdict s = .error err := by
  induction block using Block.induction_blocks generalizing Γ with
  | step block inner =>
    obtain ⟨i, r, hr, he⟩ := exists_stmt_of_checkBlock_error h
    rcases checkStmt_error_cases he with hhead | ⟨k, b, hk, hblock⟩
    · exact ⟨.direct i, r, hr, hhead⟩
    · have hb : block.inner? i k = some b := Block.inner?_eq_some_iff.mpr ⟨r, hr, hk⟩
      obtain ⟨place, s, hs, hv⟩ :=
        inner r (List.mem_of_getElem? hr) b (List.mem_of_getElem? hk) hblock
      refine ⟨.inside i k place, s, ?_, ?_⟩
      · rw [Block.stmtAt_inside_of_inner? hb]
        exact hs
      · rw [inForce_inside hb]
        exact hv

/-- A refused function has a parameter that is refused, or a statement that is. -/
theorem checkFunction_error_cases {params : List Symbol}
    (h : (Γ.checkFunction params block).result = .error err) :
    Γ.declareParams params = .error err ∨
      ∃ place s, block.stmtAt place = some s ∧
        ((Γ.addAll params).inForce block place).headVerdict s = .error err := by
  rcases checkFunction_eq_error_iff.mp h with hparams | ⟨-, hbody⟩
  · exact Or.inl hparams
  · exact Or.inr (exists_place_of_checkBlock_error hbody)

/-- An error that is not about a parameter comes from a statement. -/
theorem exists_place_of_checkFunction_error {params : List Symbol}
    (h : (Γ.checkFunction params block).result = .error err)
    (hne : ∀ name, err ≠ .duplicateParameter name) :
    ∃ place s, block.stmtAt place = some s ∧
      ((Γ.addAll params).inForce block place).headVerdict s = .error err := by
  rcases checkFunction_error_cases h with hparams | hplace
  · obtain ⟨_, x, _, _, he, _⟩ := exists_of_declareParams_error hparams
    exact absurd he (hne x.name)
  · exact hplace

end Context

end BlockLang
