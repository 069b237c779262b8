import BlockLang.Proofs.Defects.Reading
import BlockLang.Symbol.Table
import Mathlib.Algebra.Group.Int.Defs

/-!
# Trees that were built

Trees are put together from symbols that a table issued, by constructors some of which can refuse.
`Expr.Built`, `Stmt.Built` and `Block.Built` say that a tree came about in this way, step by step
and with no step refused. The slots of a built tree may hold any types: recording one is a step too.

One constructor lets a defect pass. A literal may be given as it is, and then an integer need not
fit its width. `firstDefect_of_built` says that nothing else can go wrong: the first defect of a
built tree is its first integer that does not fit, and a tree whose integers all come from the
constructor that looks at the range has none.

The proofs say of each part that it is in order but for a literal (`Part.Orderly`), which every step
preserves, and then read the parts in order (`Proofs/Defects/Reading.lean`).
-/

namespace BlockLang

/-! ## Building -/

/-- The symbol was issued by a table. -/
def Symbol.Issued (x : Symbol) : Prop :=
  ∃ (table : SymbolTable) (supply : IdSupply) (name : String) (ty : Ty)
    (rest : SymbolTable × IdSupply), table.declare supply name ty = .ok (x, rest)

/-- The expression was built. -/
inductive Expr.Built : Expr → Prop
  | constant (c : Literal) : Built (.const none c)
  | integer {width : IntWidth} {value : Int} {e : Expr} :
      Expr.ofInt width value = .ok e → Built e
  | var {x : Symbol} : x.Issued → Built (.var none x)
  | binary (op : BinaryOp) {l r : Expr} : Built l → Built r → Built (.binary none op l r)
  | sign {family : OpFamily} {sign : String} {l r e : Expr} :
      Built l → Built r → Expr.ofSign family sign l r = .ok e → Built e
  | not {a : Expr} : Built a → Built (.not none a)
  | get {a : Expr} (f : Selector) : Built a → Built (.get none a f)
  | set {a v : Expr} (f : Selector) : Built a → Built v → Built (.set none a f v)
  | deref {p : Expr} : Built p → Built (.deref none p)
  | call {name : String} {args : List Expr} {e : Expr} :
      (∀ a ∈ args, Built a) → Expr.callTo name args = .ok e → Built e
  | recorded {e : Expr} (t : Ty) : Built e → Built (e.record t)

mutual

/-- The statement was built. -/
inductive Stmt.Built : Stmt → Prop
  | declare {x : Symbol} : x.Issued → Stmt.Built (.define x none)
  | define {x : Symbol} {e : Expr} : x.Issued → e.Built → Stmt.Built (.define x (some e))
  | assign {x : Symbol} {e : Expr} : x.Issued → e.Built → Stmt.Built (.assign x e)
  | leave : Stmt.Built (.ret none)
  | giveBack {e : Expr} : e.Built → Stmt.Built (.ret (some e))
  | branch {c : Expr} {thenBlock elseBlock : List Stmt} :
      c.Built → Block.Built thenBlock → Block.Built elseBlock →
      Stmt.Built (.branch c thenBlock elseBlock)
  | loop {c : Expr} {body : List Stmt} : c.Built → Block.Built body → Stmt.Built (.loop c body)
  | call {name : String} {args : List Expr} {s : Stmt} :
      (∀ a ∈ args, a.Built) → Stmt.callTo name args = .ok s → Stmt.Built s

/-- The block was built. -/
inductive Block.Built : List Stmt → Prop
  | ofStmts {ss block : List Stmt} :
      (∀ s ∈ ss, Stmt.Built s) → Block.ofStmts ss = .ok block → Block.Built block

end

/-! ## Steps that can refuse -/

theorem Defect.verdict_eq_ok_iff {found : Option Defect} :
    Defect.verdict found = .ok () ↔ found = none := by
  cases found with
  | none => simp [verdict]
  | some d => simp [verdict]

theorem Ident.defect?_of_check {role : NameRole} {name : String}
    (h : Ident.check role name = .ok ()) : Ident.defect? role name = none :=
  Defect.verdict_eq_ok_iff.mp h

/-- An issued symbol has a name of the right form. -/
theorem Symbol.Issued.defect? {x : Symbol} (h : x.Issued) :
    Ident.defect? .variable x.name = none := by
  obtain ⟨table, supply, name, ty, rest, h⟩ := h
  cases hc : Ident.check .variable name with
  | error d =>
    rw [SymbolTable.declare, hc] at h
    cases h
  | ok _ =>
    rw [SymbolTable.declare, hc] at h
    cases h
    exact Ident.defect?_of_check hc

/-- A block that was not refused is the list that was given, and all of it is in reach. -/
theorem Block.ofStmts_eq_ok_iff {ss block : List Stmt} :
    Block.ofStmts ss = .ok block ↔ Block.reachDefect? ss = none ∧ block = ss := by
  rw [ofStmts, checkReachable]
  cases hr : Block.reachDefect? ss with
  | none => simp [Defect.verdict, Except.map, eq_comm]
  | some d => simp [Defect.verdict, Except.map]

/-- A call that was not refused has a name of the right form. -/
theorem Expr.callTo_eq_ok_iff {name : String} {args : List Expr} {e : Expr} :
    Expr.callTo name args = .ok e ↔
      Ident.defect? .function name = none ∧ e = .call none name args := by
  rw [callTo, Ident.check]
  cases hd : Ident.defect? .function name with
  | none => simp [Defect.verdict, Except.map, eq_comm]
  | some d => simp [Defect.verdict, Except.map]

theorem Stmt.callTo_eq_ok_iff {name : String} {args : List Expr} {s : Stmt} :
    Stmt.callTo name args = .ok s ↔
      Ident.defect? .function name = none ∧ s = .call name args := by
  rw [callTo, Ident.check]
  cases hd : Ident.defect? .function name with
  | none => simp [Defect.verdict, Except.map, eq_comm]
  | some d => simp [Defect.verdict, Except.map]

theorem Expr.ofInt_eq_ok_iff {w : IntWidth} {value : Int} {e : Expr} :
    Expr.ofInt w value = .ok e ↔ ∃ c, Literal.ofInt w value = .ok c ∧ e = .const none c := by
  rw [ofInt]
  cases Literal.ofInt w value with
  | error d => simp [Except.map]
  | ok c => simp [Except.map, eq_comm]

theorem Expr.exists_op_of_ofSign {family : OpFamily} {sign : String} {l r e : Expr}
    (h : Expr.ofSign family sign l r = .ok e) : ∃ op, e = .binary none op l r := by
  rw [ofSign] at h
  cases hop : family.read sign with
  | error d =>
    rw [hop] at h
    cases h
  | ok op =>
    rw [hop] at h
    exact ⟨op, (Except.ok.inj h).symm⟩

/-! ## Literals -/

/-- The bounds of a width, as powers of two. -/
theorem IntWidth.contains_iff_pow {w : IntWidth} {value : Int} :
    w.contains value = true ↔ -2 ^ (w.bits - 1) ≤ value ∧ value ≤ 2 ^ (w.bits - 1) - 1 := by
  have hhalf : (w.half : Int) = 2 ^ (w.bits - 1) := by cases w <;> rfl
  rw [contains_iff, lowest, highest, hhalf]

namespace Literal

/-- An integer lies in the range of its width. Other literals have no range. -/
def Fits : Literal → Prop
  | int w v => -2 ^ (w.bits - 1) ≤ v.toInt ∧ v.toInt ≤ 2 ^ (w.bits - 1) - 1
  | _ => True

/-- The literal is no integer, or comes from the constructor that looks at the range. -/
def Checked (c : Literal) : Prop :=
  ∀ w v, c = int w v → ∃ value, ofInt w value = .ok c

theorem defect?_int_eq_none_iff {w : IntWidth} {v : Int64} :
    (int w v).defect? = none ↔ (int w v).Fits := by
  rw [defect?, Ty.rangeDefect?, Fits, ← IntWidth.contains_iff_pow]
  cases w.contains v.toInt with
  | true => simp
  | false => simp

theorem defect?_eq_none_iff {c : Literal} : c.defect? = none ↔ c.Fits := by
  cases c with
  | int w v => exact defect?_int_eq_none_iff
  | _ => simp [defect?, Fits]

/-- Only an integer out of range is a defect, and it is reported with its width and value. -/
theorem defect?_eq_some_iff {c : Literal} {d : Defect} :
    c.defect? = some d ↔ ∃ w v, c = int w v ∧ ¬ c.Fits ∧ d = .outOfRange w v.toInt := by
  cases c with
  | int w v =>
    rw [← defect?_eq_none_iff, defect?, Ty.rangeDefect?]
    cases w.contains v.toInt with
    | true => simp
    | false =>
      constructor
      · intro h
        exact ⟨w, v, rfl, by simp, (Option.some.inj h).symm⟩
      · rintro ⟨_, _, he, -, rfl⟩
        cases he
        rfl
  | _ => simp [defect?]

/-- **The constructor of integers accepts exactly the range of the width.** The literal then holds
the value itself: no value in the range of a width is changed by 64 bits. -/
theorem ofInt_eq_ok_iff {w : IntWidth} {value : Int} {c : Literal} :
    ofInt w value = .ok c ↔ (-2 ^ (w.bits - 1) ≤ value ∧ value ≤ 2 ^ (w.bits - 1) - 1) ∧
      ∃ v : Int64, c = int w v ∧ v.toInt = value := by
  rw [ofInt, Ty.checkRange, Ty.rangeDefect?]
  by_cases hc : w.contains value = true
  · have hrange := IntWidth.contains_iff_pow.mp hc
    have hvalue : (Int64.ofInt value).toInt = value := by
      apply Int64.toInt_ofInt_of_le
      · cases w <;> simp only [IntWidth.bits] at hrange <;> omega
      · cases w <;> simp only [IntWidth.bits] at hrange <;> omega
    rw [if_pos hc]
    constructor
    · intro h
      cases h
      exact ⟨hrange, _, rfl, hvalue⟩
    · rintro ⟨-, v, rfl, hv⟩
      rw [← hv, Int64.ofInt_toInt]
      rfl
  · rw [if_neg hc]
    constructor
    · intro h
      cases h
    · rintro ⟨hrange, -⟩
      exact absurd (IntWidth.contains_iff_pow.mpr hrange) hc

theorem fits_of_checked {c : Literal} (h : c.Checked) : c.Fits := by
  cases c with
  | int w v =>
    obtain ⟨value, hvalue⟩ := h w v rfl
    obtain ⟨hrange, v', he, hv⟩ := ofInt_eq_ok_iff.mp hvalue
    cases he
    rw [Fits, hv]
    exact hrange
  | _ => trivial

end Literal

/-! ## Parts of built trees -/

/-- The literal in a node. -/
def Expr.literal? : Expr → Option Literal
  | .const _ c => some c
  | _ => none

/-- The literal in a part. -/
def Part.literal? : Part → Option Literal
  | node e => e.literal?
  | _ => none

/-- The part is in order, but for the literal that may stand in it. -/
def Part.Orderly (p : Part) : Prop := p.defect? = p.literal?.bind Literal.defect?

/-- A tree is in order if its root and its children are. -/
theorem Expr.orderly_of_children {e : Expr} (hroot : (Part.node e).Orderly)
    (hchildren : ∀ a ∈ e.children, ∀ n ∈ a.nodes, (Part.node n).Orderly) :
    ∀ n ∈ e.nodes, (Part.node n).Orderly := by
  intro n hn
  rw [Expr.nodes_eq] at hn
  rcases List.mem_cons.mp hn with rfl | hn
  · exact hroot
  · obtain ⟨a, ha, hn⟩ := Expr.mem_nodesIn.mp hn
    exact hchildren a ha n hn

/-- What is recorded in a node plays no part. -/
theorem Expr.orderly_record {e : Expr} {t : Ty} :
    (Part.node (e.record t)).Orderly ↔ (Part.node e).Orderly := by
  cases e <;> rfl

/-- **The nodes of a built expression are in order, but for literals.** -/
theorem Expr.Built.orderly {e : Expr} (h : e.Built) : ∀ n ∈ e.nodes, (Part.node n).Orderly := by
  induction h with
  | constant c => exact orderly_of_children rfl (by simp [children])
  | integer h =>
    obtain ⟨c, -, rfl⟩ := ofInt_eq_ok_iff.mp h
    exact orderly_of_children rfl (by simp [children])
  | var hx => exact orderly_of_children hx.defect? (by simp [children])
  | binary op _ _ ihl ihr => exact orderly_of_children rfl (by simpa [children] using ⟨ihl, ihr⟩)
  | sign _ _ h ihl ihr =>
    obtain ⟨op, rfl⟩ := exists_op_of_ofSign h
    exact orderly_of_children rfl (by simpa [children] using ⟨ihl, ihr⟩)
  | not _ ih => exact orderly_of_children rfl (by simpa [children] using ih)
  | get f _ ih => exact orderly_of_children rfl (by simpa [children] using ih)
  | set f _ _ iha ihv => exact orderly_of_children rfl (by simpa [children] using ⟨iha, ihv⟩)
  | deref _ ih => exact orderly_of_children rfl (by simpa [children] using ih)
  | call _ h ih =>
    obtain ⟨hname, rfl⟩ := callTo_eq_ok_iff.mp h
    exact orderly_of_children hname ih
  | @recorded e t _ ih =>
    have hroot : (Part.node (e.record t)).Orderly :=
      orderly_record.mpr (ih e (Expr.mem_nodes_self e))
    refine orderly_of_children hroot ?_
    rw [children_record]
    exact fun a ha n hn => ih n (Expr.mem_nodes_of_child ha hn)

theorem Expr.orderly_partsIn {es : List Expr} (h : ∀ a ∈ es, a.Built) :
    ∀ p ∈ Expr.partsIn es, p.Orderly := by
  intro p hp
  obtain ⟨n, hn, rfl⟩ := List.mem_map.mp hp
  obtain ⟨a, ha, hn⟩ := Expr.mem_nodesIn.mp hn
  exact (h a ha).orderly n hn

/-- A statement without blocks is in order if it is so itself and its expressions were built. -/
theorem Stmt.orderly_cons {s : Stmt} {es : List Expr} (hs : (Part.stmt s).Orderly)
    (hes : ∀ a ∈ es, a.Built) : ∀ p ∈ Part.stmt s :: Expr.partsIn es, p.Orderly :=
  List.forall_mem_cons.mpr ⟨hs, Expr.orderly_partsIn hes⟩

mutual

/-- **The parts of a built statement are in order, but for literals.** -/
theorem Stmt.Built.orderly : {s : Stmt} → s.Built → ∀ p ∈ s.parts, p.Orderly
  | _, .declare hx => Stmt.orderly_cons hx.defect? (by simp)
  | _, .define hx he => Stmt.orderly_cons hx.defect? (by simpa using he)
  | _, .assign hx he => Stmt.orderly_cons hx.defect? (by simpa using he)
  | _, .leave => Stmt.orderly_cons rfl (by simp)
  | _, .giveBack he => Stmt.orderly_cons rfl (by simpa using he)
  | .branch c thenBlock elseBlock, .branch hc ht he => by
    have hcond : ∀ p ∈ Expr.partsIn [c], p.Orderly := Expr.orderly_partsIn (by simpa using hc)
    have hthen := Block.Built.orderly ht
    have helse := Block.Built.orderly he
    rw [Stmt.parts]
    refine List.forall_mem_cons.mpr ⟨rfl, ?_⟩
    exact List.forall_mem_append.mpr ⟨hcond, List.forall_mem_append.mpr ⟨hthen, helse⟩⟩
  | .loop c body, .loop hc hb => by
    have hcond : ∀ p ∈ Expr.partsIn [c], p.Orderly := Expr.orderly_partsIn (by simpa using hc)
    have hbody := Block.Built.orderly hb
    rw [Stmt.parts]
    exact List.forall_mem_cons.mpr ⟨rfl, List.forall_mem_append.mpr ⟨hcond, hbody⟩⟩
  | _, .call hargs h => by
    obtain ⟨hname, rfl⟩ := Stmt.callTo_eq_ok_iff.mp h
    exact Stmt.orderly_cons hname hargs

/-- **The parts of a built block are in order, but for literals.** -/
theorem Block.Built.orderly : {block : List Stmt} → Block.Built block →
    ∀ p ∈ Block.parts block, p.Orderly
  | _, .ofStmts hss h => by
    obtain ⟨hreach, rfl⟩ := Block.ofStmts_eq_ok_iff.mp h
    refine List.forall_mem_cons.mpr ⟨hreach, ?_⟩
    intro p hp
    obtain ⟨s, hs, hp⟩ := Stmt.mem_partsIn.mp hp
    exact Stmt.Built.orderly (hss s hs) p hp

end

/-! ## The first defect of a built tree -/

/-- The literals of an expression in reading order. -/
def Expr.literals (e : Expr) : List Literal := e.parts.filterMap Part.literal?

/-- The literals of a statement in reading order. -/
def Stmt.literals (s : Stmt) : List Literal := s.parts.filterMap Part.literal?

/-- The literals of a block in reading order. -/
def Block.literals (block : Block) : List Literal := block.parts.filterMap Part.literal?

/-- What is found in a tree with these literals is the first integer that does not fit, and nothing
if all fit. In particular nothing is found if all integers come from the constructor that looks at
the range. -/
structure Defect.IsFirstMisfit (literals : List Literal) (found : Option Defect) : Prop where
  accepted : found = none ↔ ∀ c ∈ literals, c.Fits
  refused : ∀ d, found = some d → ∃ before w v after,
    literals = before ++ .int w v :: after ∧ (∀ c ∈ before, c.Fits) ∧ ¬ (Literal.int w v).Fits ∧
      d = .outOfRange w v.toInt
  checked : (∀ c ∈ literals, c.Checked) → found = none

/-- Where all parts are in order but for literals, only the literals have to be examined. -/
theorem findSome?_of_orderly {parts : List Part} (h : ∀ p ∈ parts, p.Orderly) :
    parts.findSome? Part.defect? =
      (parts.filterMap Part.literal?).findSome? Literal.defect? := by
  induction parts with
  | nil => rfl
  | cons p ps ih =>
    have hp : p.defect? = p.literal?.bind Literal.defect? := h p List.mem_cons_self
    have hps := ih fun q hq => h q (List.mem_cons_of_mem p hq)
    rw [findSome?_cons_eq_or, hp, hps]
    cases hc : p.literal? with
    | none => rw [List.filterMap_cons_none hc]; rfl
    | some c => rw [List.filterMap_cons_some hc, findSome?_cons_eq_or]; rfl

theorem Defect.isFirstMisfit_findSome? (literals : List Literal) :
    Defect.IsFirstMisfit literals (literals.findSome? Literal.defect?) := by
  have haccepted : literals.findSome? Literal.defect? = none ↔ ∀ c ∈ literals, c.Fits := by
    rw [List.findSome?_eq_none_iff]
    exact forall_congr' fun c => forall_congr' fun _ => Literal.defect?_eq_none_iff
  refine ⟨haccepted, ?_, ?_⟩
  · intro d hd
    obtain ⟨before, c, after, hsplit, hc, hbefore⟩ := List.findSome?_eq_some_iff.mp hd
    obtain ⟨w, v, rfl, hmisfit, rfl⟩ := Literal.defect?_eq_some_iff.mp hc
    refine ⟨before, w, v, after, hsplit, ?_, hmisfit, rfl⟩
    exact fun c hc => Literal.defect?_eq_none_iff.mp (hbefore c hc)
  · intro hchecked
    exact haccepted.mpr fun c hc => Literal.fits_of_checked (hchecked c hc)

theorem Defect.isFirstMisfit_of_orderly {parts : List Part} {found : Option Defect}
    (hfound : found = parts.findSome? Part.defect?) (h : ∀ p ∈ parts, p.Orderly) :
    Defect.IsFirstMisfit (parts.filterMap Part.literal?) found := by
  rw [hfound, findSome?_of_orderly h]
  exact Defect.isFirstMisfit_findSome? _

/--
**Built trees have no defect but integers out of range.**

The first defect of a built expression, statement or block is its first integer that does not fit
its width; there is none exactly when all integers fit. The constructor of integers accepts exactly
the values in the range of the width and keeps them, so trees whose integers all come from it have
no defect.
-/
theorem firstDefect_of_built :
    (∀ e : Expr, e.Built → Defect.IsFirstMisfit e.literals e.firstDefect) ∧
    (∀ s : Stmt, s.Built → Defect.IsFirstMisfit s.literals s.firstDefect) ∧
    (∀ b : Block, Block.Built b → Defect.IsFirstMisfit b.literals b.firstDefect) ∧
    (∀ (w : IntWidth) (value : Int) (c : Literal), Literal.ofInt w value = .ok c ↔
      (-2 ^ (w.bits - 1) ≤ value ∧ value ≤ 2 ^ (w.bits - 1) - 1) ∧
        ∃ v : Int64, c = .int w v ∧ v.toInt = value) ∧
    ∀ (w : IntWidth) (value : Int) (e : Expr), Expr.ofInt w value = .ok e ↔
      ∃ c, Literal.ofInt w value = .ok c ∧ e = .const none c := by
  refine ⟨?_, ?_, ?_, fun _ _ _ => Literal.ofInt_eq_ok_iff, fun _ _ _ => Expr.ofInt_eq_ok_iff⟩
  · intro e he
    refine Defect.isFirstMisfit_of_orderly e.firstDefect_eq ?_
    intro p hp
    obtain ⟨n, hn, rfl⟩ := List.mem_map.mp hp
    exact he.orderly n hn
  · exact fun s hs => Defect.isFirstMisfit_of_orderly s.firstDefect_eq hs.orderly
  · exact fun b hb => Defect.isFirstMisfit_of_orderly b.firstDefect_eq hb.orderly

/-- A small number is introduced; inside a loop, it is returned with a number added that eight bits
do not hold. -/
def overflowing : Block :=
  let x : Symbol := ⟨⟨0⟩, "x", .int .w8⟩
  [.define x (some (.const none (.int .w8 100))),
    .loop (.const none (.bool true))
      [.ret (some (.binary none .add (.var none x) (.const none (.int .w8 300))))]]

/-- The block can be built, and it is the second of its integers that is found. -/
theorem overflowing_firstDefect :
    Block.Built overflowing ∧ overflowing.firstDefect = some (.outOfRange .w8 300) ∧
      Defect.IsFirstMisfit [.int .w8 100, .bool true, .int .w8 300] overflowing.firstDefect := by
  have hx : Symbol.Issued ⟨⟨0⟩, "x", .int .w8⟩ := ⟨{}, {}, "x", .int .w8, _, rfl⟩
  have hfirst : Stmt.Built (.define ⟨⟨0⟩, "x", .int .w8⟩ (some (.const none (.int .w8 100)))) :=
    .define hx (@Expr.Built.integer .w8 100 _ rfl)
  have hret : Stmt.Built (.ret (some (.binary none .add (.var none ⟨⟨0⟩, "x", .int .w8⟩)
      (.const none (.int .w8 300))))) := .giveBack (.binary .add (.var hx) (.constant _))
  have hbody : Block.Built [_] := .ofStmts (List.forall_mem_singleton.mpr hret) rfl
  have hbuilt : Block.Built overflowing := by
    refine @Block.Built.ofStmts overflowing overflowing ?_ rfl
    refine List.forall_mem_cons.mpr ⟨hfirst, List.forall_mem_singleton.mpr ?_⟩
    exact .loop (.constant _) hbody
  exact ⟨hbuilt, rfl, firstDefect_of_built.2.2.1 overflowing hbuilt⟩

end BlockLang
