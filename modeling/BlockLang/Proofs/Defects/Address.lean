import BlockLang.Proofs.Defects.Building

/-!
# Where the first defect stands

A part of a tree has an address: the way to it from the root, as the positions of the parts that one
goes through. Inside a block are its statements in order; inside a statement its expressions and
then the blocks in it, the condition before both arms; inside a node its operands or arguments from
left to right. Addresses are ordered as words in a dictionary, so a part comes before the parts
inside it, and these before all that stands to the right.

* `Part.firstDefect_eq_none_iff` — a tree has no defect exactly when no part of it has one of its
  own;
* `Part.firstDefect_eq_some_iff` — otherwise the first defect is the one at the least address;
* `Part.firstDefect_congr` — nothing about a tree matters but what is looked at in each part.

What is wrong with a part is said twice: by `Part.defect?`, which finds it, and by the rules
`Part.InOrder` and `Part.HasDefect`, which do not mention how it is found. `firstDefect_is_least`
puts all this together for blocks.
-/

namespace BlockLang

/-! ## Names -/

namespace Ident

/-- A lowercase ASCII letter followed by ASCII letters, digits or underscores. -/
def Proper (name : String) : Prop :=
  ∃ c rest, name.toList = c :: rest ∧ ('a' ≤ c ∧ c ≤ 'z') ∧
    ∀ d ∈ rest, ('A' ≤ d ∧ d ≤ 'Z') ∨ ('a' ≤ d ∧ d ≤ 'z') ∨ ('0' ≤ d ∧ d ≤ '9') ∨ d = '_'

variable {role : NameRole} {name : String} {d : Defect}

theorem isLower_iff {c : Char} : c.isLower = true ↔ 'a' ≤ c ∧ c ≤ 'z' := by
  have hrange : c.isLower = (decide ('a' ≤ c) && decide (c ≤ 'z')) := rfl
  simp [hrange]

theorem isRest_iff {c : Char} : isRest c = true ↔
    ('A' ≤ c ∧ c ≤ 'Z') ∨ ('a' ≤ c ∧ c ≤ 'z') ∨ ('0' ≤ c ∧ c ≤ '9') ∨ c = '_' := by
  have hranges : isRest c = (decide ('A' ≤ c ∧ c ≤ 'Z') || c.isLower ||
      (decide ('0' ≤ c) && decide (c ≤ '9')) || c == '_') := rfl
  simp [hranges, isLower_iff, or_assoc]

theorem isValid_iff : isValid name = true ↔ Proper name := by
  rw [isValid, Proper]
  cases name.toList with
  | nil => simp
  | cons c rest =>
    simp only [accepts_cons, Bool.and_eq_true, List.all_eq_true, isLower_iff, isRest_iff]
    constructor
    · intro h
      exact ⟨c, rest, rfl, h⟩
    · rintro ⟨_, _, he, h⟩
      cases he
      exact h

theorem defect?_eq_none_iff : defect? role name = none ↔ Proper name := by
  rw [defect?, ← isValid_iff]
  cases isValid name with
  | true => simp
  | false => simp

theorem defect?_eq_some_iff :
    defect? role name = some d ↔ ¬ Proper name ∧ d = .invalidName role name := by
  rw [defect?, ← isValid_iff]
  cases isValid name with
  | true => simp
  | false => simp [eq_comm]

end Ident

/-! ## Returns -/

namespace Block

variable {b : Block} {i : Nat} {d : Defect}

/-- The statement at the position is the first return that stands directly in the block. -/
def FirstReturn (b : Block) (i : Nat) : Prop :=
  (∃ value, b[i]? = some (.ret value)) ∧ ∀ j < i, ∀ value, b[j]? ≠ some (.ret value)

theorem isReturn_iff {s : Stmt} : s.isReturn = true ↔ ∃ value, s = .ret value := by
  cases s <;> simp [Stmt.isReturn]

theorem findIdx?_isReturn_iff : b.findIdx? Stmt.isReturn = some i ↔ FirstReturn b i := by
  rw [List.findIdx?_eq_some_iff_getElem]
  constructor
  · rintro ⟨hi, hreturn, hbefore⟩
    obtain ⟨value, hvalue⟩ := isReturn_iff.mp hreturn
    refine ⟨⟨value, by rw [List.getElem?_eq_getElem hi, hvalue]⟩, ?_⟩
    intro j hj value hvalue
    obtain ⟨hlt, hget⟩ := List.getElem?_eq_some_iff.mp hvalue
    exact hbefore j hj (isReturn_iff.mpr ⟨value, hget⟩)
  · rintro ⟨⟨value, hvalue⟩, hbefore⟩
    obtain ⟨hi, hget⟩ := List.getElem?_eq_some_iff.mp hvalue
    refine ⟨hi, isReturn_iff.mpr ⟨value, hget⟩, ?_⟩
    intro j hj hreturn
    obtain ⟨value, hvalue⟩ := isReturn_iff.mp hreturn
    exact hbefore j hj value (by rw [List.getElem?_eq_getElem (by omega), hvalue])

/-- A block that has a return has a first one. -/
theorem exists_firstReturn {value : Option Expr} (h : b[i]? = some (.ret value)) :
    ∃ k ≤ i, FirstReturn b k := by
  cases hfirst : b.findIdx? Stmt.isReturn with
  | none =>
    have hnone := List.findIdx?_eq_none_iff.mp hfirst _ (List.mem_of_getElem? h)
    cases hnone
  | some k =>
    have hk := findIdx?_isReturn_iff.mp hfirst
    exact ⟨k, Nat.le_of_not_lt fun hlt => hk.2 i hlt value h, hk⟩

/-- **A block is out of order behind its first direct return, if anything follows it.** -/
theorem reachDefect?_eq_some_iff : reachDefect? b = some d ↔
    ∃ i, FirstReturn b i ∧ i + 1 < b.length ∧ d = .unreachable (i + 1) := by
  rw [reachDefect?, unreachable?]
  cases hfirst : b.findIdx? Stmt.isReturn with
  | none =>
    constructor
    · intro h
      cases h
    · rintro ⟨i, hi, -⟩
      rw [findIdx?_isReturn_iff.mpr hi] at hfirst
      cases hfirst
  | some i =>
    show (if i + 1 < b.length then some (i + 1) else none).map Defect.unreachable = some d ↔ _
    by_cases hlt : i + 1 < b.length
    · rw [if_pos hlt]
      constructor
      · intro h
        cases h
        exact ⟨i, findIdx?_isReturn_iff.mp hfirst, hlt, rfl⟩
      · rintro ⟨j, hj, -, rfl⟩
        rw [findIdx?_isReturn_iff.mpr hj] at hfirst
        cases hfirst
        rfl
    · rw [if_neg hlt]
      constructor
      · intro h
        cases h
      · rintro ⟨j, hj, hlt', -⟩
        rw [findIdx?_isReturn_iff.mpr hj] at hfirst
        cases hfirst
        exact absurd hlt' hlt

/-- A block is in order exactly when every return that stands directly in it is its end. -/
theorem reachDefect?_eq_none_iff : reachDefect? b = none ↔
    ∀ i value, b[i]? = some (.ret value) → b.length = i + 1 := by
  constructor
  · intro hnone i value hi
    obtain ⟨k, hki, hk⟩ := exists_firstReturn hi
    obtain ⟨hlt, -⟩ := List.getElem?_eq_some_iff.mp hi
    have hend : ¬ k + 1 < b.length := by
      intro hk'
      rw [reachDefect?_eq_some_iff.mpr ⟨k, hk, hk', rfl⟩] at hnone
      cases hnone
    omega
  · intro h
    refine Option.eq_none_iff_forall_ne_some.mpr fun d hd => ?_
    obtain ⟨i, ⟨⟨value, hi⟩, -⟩, hlt, -⟩ := reachDefect?_eq_some_iff.mp hd
    have hend := h i value hi
    omega

/-- **What stands in the blocks inside its statements plays no part for a block's own order**, and
neither do their expressions. -/
theorem reachDefect?_mapParts (f : Expr → Expr) (g : Block → Block) (b : Block) :
    reachDefect? (b.map (Stmt.mapParts f g)) = reachDefect? b := by
  have hreturn : Stmt.isReturn ∘ Stmt.mapParts f g = Stmt.isReturn := by
    funext s
    cases s <;> rfl
  rw [reachDefect?, reachDefect?, unreachable?, unreachable?, List.findIdx?_map, hreturn,
    List.length_map]

end Block

namespace Part

variable {p q c : Part} {d : Defect} {a : List Nat}

/-! ## What is wrong with a part -/

/-- The name in a part, and what it names. -/
def name? : Part → Option (NameRole × String)
  | stmt (.define x _) => some (.variable, x.name)
  | stmt (.assign x _) => some (.variable, x.name)
  | stmt (.call name _) => some (.function, name)
  | node (.var _ x) => some (.variable, x.name)
  | node (.call _ name _) => some (.function, name)
  | _ => none

/-- Nothing is wrong with the part, the parts inside it apart: a return that stands directly in a
block is its end, the name in a statement or a node is proper, and an integer fits its width. -/
def InOrder (p : Part) : Prop :=
  (∀ b, p = .block b → ∀ i value, b[i]? = some (.ret value) → b.length = i + 1) ∧
    (∀ role name, p.name? = some (role, name) → Ident.Proper name) ∧
    ∀ l, p.literal? = some l → l.Fits

/-- The defect is what is wrong with the part, the parts inside it apart. -/
inductive HasDefect : Part → Defect → Prop
  | unreachable {b : Block} {i : Nat} :
      Block.FirstReturn b i → i + 1 < b.length → HasDefect (.block b) (.unreachable (i + 1))
  | name {p : Part} {role : NameRole} {name : String} :
      p.name? = some (role, name) → ¬ Ident.Proper name → HasDefect p (.invalidName role name)
  | literal {p : Part} {w : IntWidth} {v : Int64} :
      p.literal? = some (.int w v) → ¬ (Literal.int w v).Fits → HasDefect p (.outOfRange w v.toInt)

/-- A part that is no block is examined by its name and its literal. -/
theorem defect?_eq_of_ne_block (h : ∀ b, p ≠ .block b) :
    p.defect? = (p.name?.bind fun n => Ident.defect? n.1 n.2).or
      (p.literal?.bind Literal.defect?) := by
  cases p with
  | block b => exact absurd rfl (h b)
  | stmt s => cases s <;> simp [defect?, Stmt.ownDefect?, name?, literal?]
  | node e => cases e <;> simp [defect?, Expr.ownDefect?, name?, literal?, Expr.literal?]

/-- No part has a name and a literal at once. -/
theorem name?_eq_none_of_literal? {l : Literal} (h : p.literal? = some l) : p.name? = none := by
  cases p with
  | block b => rfl
  | stmt s => cases h
  | node e => cases e <;> simp_all [name?, literal?, Expr.literal?]

theorem inOrder_iff : p.InOrder ↔ p.defect? = none := by
  cases p with
  | block b => simp [InOrder, name?, literal?, defect?, Block.reachDefect?_eq_none_iff]
  | stmt s =>
    cases s <;> simp [InOrder, name?, literal?, defect?, Stmt.ownDefect?, Ident.defect?_eq_none_iff]
  | node e =>
    cases e <;> simp [InOrder, name?, literal?, Expr.literal?, defect?, Expr.ownDefect?,
      Ident.defect?_eq_none_iff, Literal.defect?_eq_none_iff]

theorem hasDefect_block_iff {b : Block} :
    HasDefect (.block b) d ↔ Block.reachDefect? b = some d := by
  rw [Block.reachDefect?_eq_some_iff]
  constructor
  · intro h
    cases h with
    | unreachable hi hlt => exact ⟨_, hi, hlt, rfl⟩
    | name hname _ => cases hname
    | literal hl _ => cases hl
  · rintro ⟨i, hi, hlt, rfl⟩
    exact .unreachable hi hlt

/-- **A part has the defect that is found in it.** -/
theorem hasDefect_iff : p.HasDefect d ↔ p.defect? = some d := by
  by_cases hblock : ∃ b, p = .block b
  · obtain ⟨b, rfl⟩ := hblock
    exact hasDefect_block_iff
  · have hne : ∀ b, p ≠ .block b := fun b he => hblock ⟨b, he⟩
    rw [defect?_eq_of_ne_block hne, Option.or_eq_some_iff, Option.bind_eq_some_iff,
      Option.bind_eq_some_iff]
    constructor
    · intro h
      cases h with
      | unreachable _ _ => exact absurd rfl (hne _)
      | name hname hbad =>
        exact Or.inl ⟨_, hname, Ident.defect?_eq_some_iff.mpr ⟨hbad, rfl⟩⟩
      | literal hl hmisfit =>
        refine Or.inr ⟨by rw [name?_eq_none_of_literal? hl]; rfl, _, hl, ?_⟩
        exact Literal.defect?_eq_some_iff.mpr ⟨_, _, rfl, hmisfit, rfl⟩
    · rintro (⟨⟨role, name⟩, hname, hd⟩ | ⟨-, l, hl, hd⟩)
      · obtain ⟨hbad, rfl⟩ := Ident.defect?_eq_some_iff.mp hd
        exact .name hname hbad
      · obtain ⟨w, v, rfl, hmisfit, rfl⟩ := Literal.defect?_eq_some_iff.mp hd
        exact .literal hl hmisfit

/-! ## Addresses -/

/-- The parts directly inside a part, in reading order. -/
def children : Part → List Part
  | block b => b.map stmt
  | stmt s => s.exprs.map node ++ s.blocks.map block
  | node e => e.children.map node

/-- The part at an address. Each number picks a part directly inside. -/
def at? : Part → List Nat → Option Part
  | p, [] => some p
  | p, i :: a => p.children[i]?.bind fun c => c.at? a

theorem at?_cons_of_child {i : Nat} (hc : p.children[i]? = some c) : p.at? (i :: a) = c.at? a := by
  rw [at?, hc, Option.bind_some]

theorem at?_cons_eq_some_iff {i : Nat} :
    p.at? (i :: a) = some q ↔ ∃ c, p.children[i]? = some c ∧ c.at? a = some q := by
  rw [at?, Option.bind_eq_some_iff]

/-- What passes from the parts inside a part to the part holds of every part. -/
theorem induction_children {P : Part → Prop} (step : ∀ p, (∀ c ∈ p.children, P c) → P p)
    (p : Part) : P p := by
  have hnode : ∀ e, P (node e) := by
    intro e
    induction e using Expr.induction_children with
    | step e ih => exact step _ (List.forall_mem_map.mpr ih)
  -- a statement waits for its blocks, whose own induction goes through statements
  have hstmt : ∀ s : Stmt, (∀ b ∈ s.blocks, P (block b)) → P (stmt s) := by
    intro s hblocks
    exact step _ (List.forall_mem_append.mpr
      ⟨List.forall_mem_map.mpr fun e _ => hnode e, List.forall_mem_map.mpr hblocks⟩)
  have hblock : ∀ b, P (block b) := by
    intro b
    induction b using Block.induction_blocks with
    | step b ih => exact step _ (List.forall_mem_map.mpr fun s hs => hstmt s (ih s hs))
  cases p with
  | block b => exact hblock b
  | stmt s => exact hstmt s fun b _ => hblock b
  | node e => exact hnode e

/-! ## The first defect -/

/-- The first defect of a part and the parts inside it. -/
def firstDefect : Part → Option Defect
  | block b => b.firstDefect
  | stmt s => s.firstDefect
  | node e => e.firstDefect

end Part

theorem Expr.firstDefectIn_eq_findSome? (es : List Expr) :
    Expr.firstDefectIn es = es.findSome? Expr.firstDefect := by
  induction es with
  | nil => rfl
  | cons e es ih => rw [firstDefectIn, findSome?_cons_eq_or, ih]

theorem Stmt.firstDefectIn_eq_findSome? (ss : List Stmt) :
    Stmt.firstDefectIn ss = ss.findSome? Stmt.firstDefect := by
  induction ss with
  | nil => rfl
  | cons s ss ih => rw [firstDefectIn, findSome?_cons_eq_or, ih]

/-- A statement is examined before its expressions, and these before the blocks in it. -/
theorem Stmt.firstDefect_eq_or (s : Stmt) :
    s.firstDefect = s.ownDefect?.or
      ((s.exprs.findSome? Expr.firstDefect).or (s.blocks.findSome? Block.firstDefect)) := by
  cases s with
  | define x value => cases value <;> simp [firstDefect, ownDefect?, exprs, blocks]
  | ret value => cases value <;> simp [firstDefect, ownDefect?, exprs, blocks]
  | call name args =>
    simp [firstDefect, ownDefect?, exprs, blocks, Expr.firstDefectIn_eq_findSome?]
  | _ =>
    simp [firstDefect, ownDefect?, exprs, blocks, Block.firstDefect, findSome?_cons_eq_or]

namespace Part

variable {p q c : Part} {d : Defect} {a : List Nat}

/-- **A part is examined before the parts inside it, and these in order.** -/
theorem firstDefect_eq_or (p : Part) :
    p.firstDefect = p.defect?.or (p.children.findSome? firstDefect) := by
  cases p with
  | block b =>
    rw [firstDefect, Block.firstDefect, Stmt.firstDefectIn_eq_findSome?, children,
      List.findSome?_map]
    rfl
  | stmt s =>
    rw [firstDefect, Stmt.firstDefect_eq_or, children, List.findSome?_append, List.findSome?_map,
      List.findSome?_map]
    rfl
  | node e =>
    rw [firstDefect, Expr.firstDefect_eq_or, Expr.firstDefectIn_eq_findSome?, children,
      List.findSome?_map]
    rfl

/-- **There is no first defect exactly when no part has a defect.** -/
theorem firstDefect_eq_none_iff :
    p.firstDefect = none ↔ ∀ a q, p.at? a = some q → q.defect? = none := by
  induction p using induction_children with
  | step p ih =>
    rw [firstDefect_eq_or, Option.or_eq_none_iff, List.findSome?_eq_none_iff]
    constructor
    · rintro ⟨hown, hinside⟩ a q hq
      cases a with
      | nil =>
        cases hq
        exact hown
      | cons i a =>
        obtain ⟨c, hc, hq⟩ := at?_cons_eq_some_iff.mp hq
        have hmem := List.mem_of_getElem? hc
        exact (ih c hmem).mp (hinside c hmem) a q hq
    · intro h
      refine ⟨h [] p rfl, fun c hmem => (ih c hmem).mpr fun a q hq => ?_⟩
      obtain ⟨i, hi⟩ := List.mem_iff_getElem?.mp hmem
      exact h (i :: a) q (at?_cons_eq_some_iff.mpr ⟨c, hi, hq⟩)

/-- The part at the address has the defect, and no part at a smaller address has any. -/
structure FirstAt (p : Part) (a : List Nat) (d : Defect) : Prop where
  here : ∃ q, p.at? a = some q ∧ q.defect? = some d
  before : ∀ b < a, ∀ q, p.at? b = some q → q.defect? = none

/-- What is wrong with a part itself comes first. -/
theorem firstAt_nil (h : p.defect? = some d) : p.FirstAt [] d where
  here := ⟨p, rfl, h⟩
  before := fun b hb => absurd hb (List.not_lt_nil b)

/-- If nothing is wrong with a part itself, the first defect is in the first part inside it that has
any. -/
theorem FirstAt.cons {i : Nat} (h : c.FirstAt a d) (hown : p.defect? = none)
    (hc : p.children[i]? = some c)
    (hleft : ∀ j < i, ∀ b, p.children[j]? = some b → b.firstDefect = none) :
    p.FirstAt (i :: a) d where
  here := by
    rw [at?_cons_of_child hc]
    exact h.here
  before := by
    intro b hb q hq
    cases b with
    | nil =>
      cases hq
      exact hown
    | cons j b =>
      -- a smaller address leads into a part further left, or further up or left in the same part
      rcases List.cons_lt_cons_iff.mp hb with hj | ⟨rfl, hlt⟩
      · obtain ⟨c', hc', hq⟩ := at?_cons_eq_some_iff.mp hq
        exact firstDefect_eq_none_iff.mp (hleft j hj c' hc') b q hq
      · rw [at?_cons_of_child hc] at hq
        exact h.before b hlt q hq

theorem exists_firstAt (h : p.firstDefect = some d) : ∃ a, p.FirstAt a d := by
  induction p using induction_children with
  | step p ih =>
    rw [firstDefect_eq_or] at h
    cases hown : p.defect? with
    | some d' =>
      rw [hown] at h
      cases h
      exact ⟨[], firstAt_nil hown⟩
    | none =>
      rw [hown, Option.none_or] at h
      obtain ⟨left, c, right, hsplit, hc, hleft⟩ := List.findSome?_eq_some_iff.mp h
      have hchild : p.children[left.length]? = some c := by rw [hsplit]; simp
      obtain ⟨a, ha⟩ := ih c (List.mem_of_getElem? hchild) hc
      refine ⟨left.length :: a, ha.cons hown hchild fun j hj b hb => ?_⟩
      rw [hsplit, List.getElem?_append_left hj] at hb
      exact hleft b (List.mem_of_getElem? hb)

/-- There is at most one first defect. -/
theorem FirstAt.unique {b : List Nat} {d' : Defect} (h : p.FirstAt a d) (h' : p.FirstAt b d') :
    d = d' := by
  obtain ⟨q, hq, hd⟩ := h.here
  obtain ⟨r, hr, hd'⟩ := h'.here
  have hab : ¬ a < b := by
    intro hlt
    rw [h'.before a hlt q hq] at hd
    cases hd
  have hba : ¬ b < a := by
    intro hlt
    rw [h.before b hlt r hr] at hd'
    cases hd'
  obtain rfl : a = b := List.le_antisymm hba hab
  rw [hq] at hr
  cases hr
  exact Option.some.inj (hd.symm.trans hd')

/-- **The first defect is the one at the least address.** -/
theorem firstDefect_eq_some_iff : p.firstDefect = some d ↔ ∃ a, p.FirstAt a d := by
  refine ⟨exists_firstAt, ?_⟩
  rintro ⟨a, ha⟩
  cases hfirst : p.firstDefect with
  | none =>
    obtain ⟨q, hq, hd⟩ := ha.here
    rw [firstDefect_eq_none_iff.mp hfirst a q hq] at hd
    cases hd
  | some d' =>
    obtain ⟨b, hb⟩ := exists_firstAt hfirst
    rw [hb.unique ha]

/-! ## What the first defect depends on -/

/-- Which of the statements of a block are returns. -/
def returns : Part → List Bool
  | block b => b.map Stmt.isReturn
  | _ => []

/-- What is looked at in a part: where the returns of a block are, and the name or the literal in a
statement or a node. -/
def look (p : Part) : List Bool × Option (NameRole × String) × Option Literal :=
  (p.returns, p.name?, p.literal?)

theorem defect?_eq_look (p : Part) :
    p.defect? =
      ((p.returns.findIdx? id).bind fun i =>
        if i + 1 < p.returns.length then some (.unreachable (i + 1)) else none).or
      ((p.name?.bind fun n => Ident.defect? n.1 n.2).or (p.literal?.bind Literal.defect?)) := by
  cases p with
  | block b =>
    rw [defect?, Block.reachDefect?, Block.unreachable?, returns, List.findIdx?_map,
      List.length_map, Function.id_comp]
    cases b.findIdx? Stmt.isReturn with
    | none => rfl
    | some i => by_cases hlt : i + 1 < b.length <;> simp [hlt, name?, literal?]
  | stmt s => exact defect?_eq_of_ne_block (by simp)
  | node e => exact defect?_eq_of_ne_block (by simp)

theorem defect?_congr (h : p.look = q.look) : p.defect? = q.defect? := by
  obtain ⟨hreturns, hrest⟩ := Prod.mk.inj h
  obtain ⟨hname, hliteral⟩ := Prod.mk.inj hrest
  rw [defect?_eq_look, defect?_eq_look, hreturns, hname, hliteral]

theorem FirstAt.congr (h : ∀ a, (p.at? a).map look = (q.at? a).map look) (hp : p.FirstAt a d) :
    q.FirstAt a d where
  here := by
    obtain ⟨r, hr, hd⟩ := hp.here
    have ha := h a
    rw [hr, Option.map_some, eq_comm, Option.map_eq_some_iff] at ha
    obtain ⟨r', hr', hlook⟩ := ha
    exact ⟨r', hr', (defect?_congr hlook).trans hd⟩
  before := by
    intro b hb r' hr'
    have hlook := h b
    rw [hr', Option.map_some, Option.map_eq_some_iff] at hlook
    obtain ⟨r, hr, hlook⟩ := hlook
    exact (defect?_congr hlook).symm.trans (hp.before b hb r hr)

/-- **Trees in which the same is looked at everywhere have the same first defect.** -/
theorem firstDefect_congr (h : ∀ a, (p.at? a).map look = (q.at? a).map look) :
    p.firstDefect = q.firstDefect := by
  ext d
  rw [firstDefect_eq_some_iff, firstDefect_eq_some_iff]
  constructor
  · rintro ⟨a, ha⟩
    exact ⟨a, ha.congr h⟩
  · rintro ⟨a, ha⟩
    exact ⟨a, ha.congr fun a => (h a).symm⟩

/-- The part with all slots empty. -/
def bare : Part → Part
  | block b => block (Block.bare b)
  | stmt s => stmt s.bare
  | node e => node e.bare

theorem children_bare (p : Part) : p.bare.children = p.children.map bare := by
  cases p with
  | block b => simp [bare, children, Block.bare_eq_map]
  | stmt s =>
    cases s with
    | define x value => cases value <;> rfl
    | ret value => cases value <;> rfl
    | call name args =>
      simp [bare, children, Stmt.bare, Stmt.exprs, Stmt.blocks, Expr.bareAll_eq_map]
    | _ => rfl
  | node e =>
    cases e with
    | call s name args => simp [bare, children, Expr.bare, Expr.children, Expr.bareAll_eq_map]
    | _ => rfl

theorem look_bare (p : Part) : p.bare.look = p.look := by
  cases p with
  | block b =>
    have hreturn : Stmt.isReturn ∘ Stmt.bare = Stmt.isReturn := by
      funext s
      cases s <;> rfl
    rw [bare, look, look, returns, returns, Block.bare_eq_map, List.map_map, hreturn]
    rfl
  | stmt s => cases s <;> rfl
  | node e => cases e <;> rfl

theorem at?_bare (p : Part) (a : List Nat) : p.bare.at? a = (p.at? a).map bare := by
  induction a generalizing p with
  | nil => rfl
  | cons i a ih =>
    rw [at?, at?, children_bare, List.getElem?_map]
    cases p.children[i]? with
    | none => rfl
    | some c => exact ih c

/-- **Recorded types play no part.** -/
theorem firstDefect_bare (p : Part) : p.bare.firstDefect = p.firstDefect := by
  refine firstDefect_congr fun a => ?_
  rw [at?_bare, Option.map_map]
  exact congrArg (Option.map · _) (funext look_bare)

end Part

/-! ## Blocks -/

namespace Block

/--
**The first defect of a block is the one at the least address.**

There is none exactly when all parts of the block are in order: nothing follows a return that stands
directly in a block, names are proper, and integers fit their widths, at any depth. Otherwise it is
what is wrong with the part at some address, and all parts at smaller addresses are in order. What
the statements of a block hold inside them, returns included, plays no part for the block's own
order. Recorded types play no part at all, nor does anything else that is not looked at.
-/
theorem firstDefect_is_least (b : Block) :
    (b.firstDefect = none ↔ ∀ a p, (Part.block b).at? a = some p → p.InOrder) ∧
      (∀ d, b.firstDefect = some d ↔
        ∃ a p, (Part.block b).at? a = some p ∧ p.HasDefect d ∧
          ∀ a' < a, ∀ q, (Part.block b).at? a' = some q → q.InOrder) ∧
      (∀ f g, reachDefect? (b.map (Stmt.mapParts f g)) = reachDefect? b) ∧
      (∀ b' : Block, Block.bare b' = Block.bare b → b'.firstDefect = b.firstDefect) ∧
      ∀ b' : Block, (∀ a, ((Part.block b').at? a).map Part.look =
        ((Part.block b).at? a).map Part.look) → b'.firstDefect = b.firstDefect := by
  refine ⟨?_, ?_, fun f g => reachDefect?_mapParts f g b, ?_, ?_⟩
  · simp only [Part.inOrder_iff]
    exact @Part.firstDefect_eq_none_iff (.block b)
  · intro d
    refine (@Part.firstDefect_eq_some_iff (.block b) d).trans (exists_congr fun a => ?_)
    simp only [Part.inOrder_iff, Part.hasDefect_iff]
    constructor
    · rintro ⟨⟨p, hp, hd⟩, hbefore⟩
      exact ⟨p, hp, hd, hbefore⟩
    · rintro ⟨p, hp, hd, hbefore⟩
      exact ⟨⟨p, hp, hd⟩, hbefore⟩
  · intro b' h
    calc
      b'.firstDefect = (Part.block (Block.bare b')).firstDefect :=
        ((Part.block b').firstDefect_bare).symm
      _ = (Part.block (Block.bare b)).firstDefect := by rw [h]
      _ = b.firstDefect := (Part.block b).firstDefect_bare
  · exact fun b' h => Part.firstDefect_congr h

/-- In the first arm of a branch a call of a wrong name follows a return. In the second arm a wrong
name is given a number that does not fit, and so is a name behind the branch. -/
def tangled : Block :=
  [.branch (.const none (.bool true)) [.ret none, .call "Tick" []]
      [.assign ⟨⟨0⟩, "X", .int .w8⟩ (.const none (.int .w8 300))],
    .define ⟨⟨1⟩, "y", .int .w8⟩ (some (.const none (.int .w8 300)))]

/-- The block itself is in order. The first arm is found to be out of order before anything inside
it, and the defect does not go away when a type is recorded somewhere. -/
theorem tangled_firstDefect_is_least :
    reachDefect? tangled = none ∧ tangled.firstDefect = some (.unreachable 1) ∧
      (∃ a p, (Part.block tangled).at? a = some p ∧ p.HasDefect (.unreachable 1) ∧
        ∀ a' < a, ∀ q, (Part.block tangled).at? a' = some q → q.InOrder) ∧
      (¬ ∀ a p, (Part.block tangled).at? a = some p → p.InOrder) ∧
      ∀ b' : Block, Block.bare b' = Block.bare tangled →
        b'.firstDefect = some (.unreachable 1) := by
  obtain ⟨hnone, hsome, -, hbare, -⟩ := firstDefect_is_least tangled
  have hfirst : tangled.firstDefect = some (.unreachable 1) := rfl
  refine ⟨rfl, hfirst, (hsome _).mp hfirst, fun h => ?_, fun b' h => (hbare b' h).trans hfirst⟩
  rw [hnone.mpr h] at hfirst
  cases hfirst

end Block

end BlockLang
