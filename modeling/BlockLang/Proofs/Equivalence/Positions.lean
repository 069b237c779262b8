import BlockLang.Proofs.Renaming.Basic
import BlockLang.Proofs.Slots.Coherence
import BlockLang.Proofs.Typing.Checking

/-!
# Names of fields replaced by positions

A field can be selected by its name or by its position. Once a body was accepted, its aggregates have
their types recorded, so each name in it can be replaced by the position under which the field is
found in the recorded type. `Positioned` allows this at any number of places at once, also inside an
aggregate that is itself an element of another one. The body is accepted as before then, and with the
same types (`checkFunction_positioned`).

The proof speaks about trees that are **settled**: they are accepted and hold the types already that
a visit would record. A tree that was accepted is settled afterwards; a settled tree with names
replaced is settled again, as the replacement asks the slots and keeps them; and a tree that differs
from a settled one in its slots only is accepted, and left as the settled one.
-/

namespace BlockLang

/-! ## Replacing names -/

/-- The second selector is the first one or, if that is the name of a field, the position under which
the field is found in the recorded type. -/
inductive Selector.Positioned (recorded : Option Ty) : Selector → Selector → Prop
  | keep {f : Selector} : Positioned recorded f f
  | position {name : String} {t u : Ty} {i : Nat} :
      recorded = some t → t.elementAt (.name name) = .ok (i, u) →
      Positioned recorded (.name name) (.index i)

mutual

/-- The second expression is the first one with positions in place of some names of fields. What is
recorded is kept. -/
inductive Expr.Positioned : Expr → Expr → Prop
  | const {s : Option Ty} {c : Literal} : Positioned (.const s c) (.const s c)
  | var {s : Option Ty} {x : Symbol} : Positioned (.var s x) (.var s x)
  | binary {s : Option Ty} {op : BinaryOp} {l l' r r' : Expr} :
      Positioned l l' → Positioned r r' → Positioned (.binary s op l r) (.binary s op l' r')
  | not {s : Option Ty} {e e' : Expr} : Positioned e e' → Positioned (.not s e) (.not s e')
  | get {s : Option Ty} {a a' : Expr} {f f' : Selector} :
      Positioned a a' → f.Positioned a.slot f' → Positioned (.get s a f) (.get s a' f')
  | set {s : Option Ty} {a a' v v' : Expr} {f f' : Selector} :
      Positioned a a' → f.Positioned a.slot f' → Positioned v v' →
      Positioned (.set s a f v) (.set s a' f' v')
  | deref {s : Option Ty} {p p' : Expr} : Positioned p p' → Positioned (.deref s p) (.deref s p')
  | call {s : Option Ty} {name : String} {args args' : List Expr} :
      PositionedAll args args' → Positioned (.call s name args) (.call s name args')

/-- The expressions of the second list are those of the first one with names replaced. -/
inductive Expr.PositionedAll : List Expr → List Expr → Prop
  | nil : PositionedAll [] []
  | cons {e e' : Expr} {es es' : List Expr} :
      Positioned e e' → PositionedAll es es' → PositionedAll (e :: es) (e' :: es')

end

mutual

/-- The second statement is the first one with positions in place of some names of fields. -/
inductive Stmt.Positioned : Stmt → Stmt → Prop
  | declare {x : Symbol} : Stmt.Positioned (.define x none) (.define x none)
  | define {x : Symbol} {e e' : Expr} :
      e.Positioned e' → Stmt.Positioned (.define x (some e)) (.define x (some e'))
  | assign {x : Symbol} {e e' : Expr} :
      e.Positioned e' → Stmt.Positioned (.assign x e) (.assign x e')
  | leave : Stmt.Positioned (.ret none) (.ret none)
  | giveBack {e e' : Expr} : e.Positioned e' → Stmt.Positioned (.ret (some e)) (.ret (some e'))
  | branch {c c' : Expr} {thenBlock thenBlock' elseBlock elseBlock' : List Stmt} :
      c.Positioned c' → Block.Positioned thenBlock thenBlock' →
      Block.Positioned elseBlock elseBlock' →
      Stmt.Positioned (.branch c thenBlock elseBlock) (.branch c' thenBlock' elseBlock')
  | loop {c c' : Expr} {body body' : List Stmt} :
      c.Positioned c' → Block.Positioned body body' →
      Stmt.Positioned (.loop c body) (.loop c' body')
  | call {name : String} {args args' : List Expr} :
      Expr.PositionedAll args args' → Stmt.Positioned (.call name args) (.call name args')

/-- The statements of the second block are those of the first one with names replaced. -/
inductive Block.Positioned : List Stmt → List Stmt → Prop
  | nil : Block.Positioned [] []
  | cons {s s' : Stmt} {ss ss' : List Stmt} :
      s.Positioned s' → Block.Positioned ss ss' → Block.Positioned (s :: ss) (s' :: ss')

end

/-- The aggregate of a node that selects an element of it, and the selector. -/
def Expr.selection? : Expr → Option (Expr × Selector)
  | .get _ a f => some (a, f)
  | .set _ a f _ => some (a, f)
  | _ => none

/-- In a node whose recorded types fit together, each name has a position. -/
theorem Expr.exists_position_of_coherent {Γ : Context} {n a : Expr} {name : String}
    (h : n.Coherent Γ) (hsel : n.selection? = some (a, .name name)) :
    ∃ i, Selector.Positioned a.slot (.name name) (.index i) := by
  cases n with
  | get s a' f =>
    cases hsel
    obtain ⟨t, i, u, ht, hi, -⟩ := h
    exact ⟨i, .position ht hi⟩
  | set s a' f v =>
    cases hsel
    obtain ⟨t, i, u, ht, hi, -⟩ := h
    exact ⟨i, .position ht hi⟩
  | _ => cases hsel

/-- **The position picks what the name picked**, if the type recorded is that of the aggregate. -/
theorem Ty.Selects.positioned {t u : Ty} {f f' : Selector} {i : Nat} (h : t.Selects f i u)
    (hf : f.Positioned (some t) f') : t.Selects f' i u := by
  cases hf with
  | keep => exact h
  | @position name t' u' j ht hj =>
    cases ht
    rw [Ty.elementAt_eq_ok_iff.mpr h] at hj
    cases hj
    cases h with
    | field hi _ => exact .position hi

theorem Stmt.Positioned.defines? {s s' : Stmt} (h : s.Positioned s') :
    s'.defines? = s.defines? := by
  cases h <;> rfl

/-! ## What the nodes hold -/

mutual

theorem Expr.Positioned.slots : ∀ {e e' : Expr}, e.Positioned e' →
    e'.nodes.map Expr.slot = e.nodes.map Expr.slot
  | _, _, .const => rfl
  | _, _, .var => rfl
  | _, _, .binary hl hr => by simp [Expr.nodes, Expr.slot, hl.slots, hr.slots]
  | _, _, .not ha => by simp [Expr.nodes, Expr.slot, ha.slots]
  | _, _, .get ha _ => by simp [Expr.nodes, Expr.slot, ha.slots]
  | _, _, .set ha _ hv => by simp [Expr.nodes, Expr.slot, ha.slots, hv.slots]
  | _, _, .deref hp => by simp [Expr.nodes, Expr.slot, hp.slots]
  | _, _, .call hargs => by simp [Expr.nodes, Expr.slot, hargs.slots]

theorem Expr.PositionedAll.slots : ∀ {es es' : List Expr}, Expr.PositionedAll es es' →
    (Expr.nodesIn es').map Expr.slot = (Expr.nodesIn es).map Expr.slot
  | _, _, .nil => rfl
  | _, _, .cons he hes => by
    rw [Expr.nodesIn, Expr.nodesIn, List.map_append, List.map_append, he.slots, hes.slots]

end

theorem Stmt.Positioned.slots_exprs {s s' : Stmt} (h : s.Positioned s') :
    (Expr.nodesIn s'.exprs).map Expr.slot = (Expr.nodesIn s.exprs).map Expr.slot := by
  cases h with
  | declare | leave => rfl
  | define he | assign he | giveBack he | branch he _ _ | loop he _ =>
    exact Expr.PositionedAll.slots (.cons he .nil)
  | call hargs => exact hargs.slots

/-- What a block holds: the expressions of its first statement, the blocks inside that statement, and
the rest. -/
theorem Block.slots_cons (s : Stmt) (ss : List Stmt) :
    Block.slots (s :: ss) =
      (Expr.nodesIn s.exprs).map Expr.slot ++ (s.blocks.flatMap Block.slots ++ Block.slots ss) := by
  cases s <;> simp [slots, nodes, stmts, Stmt.stmts, Stmt.blocks]

mutual

theorem Stmt.Positioned.slots_blocks : ∀ {s s' : Stmt}, s.Positioned s' →
    s'.blocks.flatMap Block.slots = s.blocks.flatMap Block.slots
  | _, _, .declare => rfl
  | _, _, .define _ => rfl
  | _, _, .assign _ => rfl
  | _, _, .leave => rfl
  | _, _, .giveBack _ => rfl
  | _, _, .branch _ hthen helse => by simp [Stmt.blocks, hthen.slots, helse.slots]
  | _, _, .loop _ hbody => by simp [Stmt.blocks, hbody.slots]
  | _, _, .call _ => rfl

/-- **Replacing names changes nothing about the recorded types.** -/
theorem Block.Positioned.slots : ∀ {ss ss' : List Stmt}, Block.Positioned ss ss' →
    Block.slots ss' = Block.slots ss
  | _, _, .nil => rfl
  | _, _, .cons hs hss => by
    rw [Block.slots_cons, Block.slots_cons, hs.slots_exprs, hs.slots_blocks, hss.slots]

end

/-! ## Nodes over unchanged parts -/

theorem map_eq_self_iff {α : Type} {g : α → α} {as : List α} :
    as.map g = as ↔ ∀ a ∈ as, g a = a := by
  rw [← List.map_inj_left, List.map_id']

theorem Expr.record_eq_self {e : Expr} {t : Ty} (h : e.slot = some t) : e.record t = e := by
  cases e <;> cases h <;> rfl

theorem Expr.mapChildren_eq_self {g : Expr → Expr} {e : Expr} (h : ∀ a ∈ e.children, g a = a) :
    e.mapChildren g = e := by
  cases e with
  | call s name args =>
    have hargs : args.map g = args := map_eq_self_iff.mpr h
    rw [mapChildren, hargs]
  | _ => simp_all [children, mapChildren]

theorem Stmt.mapParts_eq_self {g : Expr → Expr} {k : Block → Block} {s : Stmt}
    (hg : ∀ a ∈ s.exprs, g a = a) (hk : ∀ b ∈ s.blocks, k b = b) : s.mapParts g k = s := by
  cases s with
  | define x value => cases value <;> simp_all [exprs, mapParts]
  | ret value => cases value <;> simp_all [exprs, mapParts]
  | call name args =>
    have hargs : args.map g = args := map_eq_self_iff.mpr hg
    rw [mapParts, hargs]
  | _ => simp_all [exprs, blocks, mapParts]

namespace Context

variable {Γ : Context}

/-! ## Settled trees -/

/-- The expression has the type, and holds what inference would record. -/
structure Settled (Γ : Context) (e : Expr) (t : Ty) : Prop where
  result : (Γ.infer e).result = .ok t
  node : (Γ.infer e).node = e

/-- The statement is accepted, and holds what checking would record. -/
structure SettledStmt (Γ : Context) (s : Stmt) : Prop where
  result : (Γ.checkStmt s).result = .ok ()
  node : (Γ.checkStmt s).node = s

/-- The block is accepted, and holds what checking would record. -/
structure SettledBlock (Γ : Context) (block : Block) : Prop where
  result : (Γ.checkBlock block).result = .ok ()
  node : (Γ.checkBlock block).node = block

theorem Settled.hasType {e : Expr} {t : Ty} (h : Γ.Settled e t) : Γ.HasType e t :=
  infer_eq_ok_iff.mp h.result

theorem settled_of_hasType {e : Expr} {t : Ty} (h : Γ.HasType e t) (hn : (Γ.infer e).node = e) :
    Γ.Settled e t :=
  ⟨infer_eq_ok_iff.mpr h, hn⟩

/-- A tree is settled when its root holds its type and the expressions below hold theirs. -/
theorem settled_iff {e : Expr} {t : Ty} :
    Γ.Settled e t ↔
      (Γ.HasType e t ∧ e.slot = some t) ∧ ∀ a ∈ e.children, (Γ.infer a).node = a := by
  constructor
  · rintro ⟨hr, hn⟩
    have hslot := slot_node_infer_of_ok hr
    have hchildren := congrArg Expr.children (node_infer_of_ok hr)
    rw [hn] at hslot
    rw [hn, Expr.children_record, Expr.children_mapChildren] at hchildren
    exact ⟨⟨infer_eq_ok_iff.mp hr, hslot⟩, map_eq_self_iff.mp hchildren.symm⟩
  · rintro ⟨⟨ht, hslot⟩, hchildren⟩
    have hr := infer_eq_ok_iff.mpr ht
    refine ⟨hr, ?_⟩
    -- inference visits the children and records the type in the root, and neither changes anything
    rw [node_infer_of_ok hr, Expr.mapChildren_eq_self hchildren, Expr.record_eq_self hslot]

theorem settledStmt_iff {s : Stmt} :
    Γ.SettledStmt s ↔
      (Γ.StmtTyped s (Γ.addAll s.defines?.toList) ∧ ∀ a ∈ s.exprs, (Γ.infer a).node = a) ∧
        ∀ b ∈ s.blocks, Γ.SettledBlock b := by
  constructor
  · rintro ⟨hr, hn⟩
    obtain ⟨hhead, hblocks⟩ := checkStmt_eq_ok_iff.mp hr
    have hexprs' := congrArg Stmt.exprs (node_checkStmt_of_ok hr)
    have hblocks' := congrArg Stmt.blocks (node_checkStmt_of_ok hr)
    rw [hn, Stmt.exprs_mapParts] at hexprs'
    rw [hn, Stmt.blocks_mapParts] at hblocks'
    refine ⟨⟨stmtTyped_of_head hhead fun b hb => checkBlock_eq_ok_iff.mp (hblocks b hb),
      map_eq_self_iff.mp hexprs'.symm⟩, ?_⟩
    exact fun b hb => ⟨hblocks b hb, map_eq_self_iff.mp hblocks'.symm b hb⟩
  · rintro ⟨⟨ht, hexprs⟩, hblocks⟩
    have hr : (Γ.checkStmt s).result = .ok () :=
      checkStmt_eq_ok_iff.mpr ⟨(head_of_stmtTyped ht).1, fun b hb => (hblocks b hb).result⟩
    refine ⟨hr, ?_⟩
    rw [node_checkStmt_of_ok hr, Stmt.mapParts_eq_self hexprs fun b hb => (hblocks b hb).node]

theorem settledBlock_cons_iff {s : Stmt} {ss : Block} :
    Γ.SettledBlock (s :: ss) ↔
      Γ.SettledStmt s ∧ (Γ.addAll s.defines?.toList).SettledBlock ss := by
  constructor
  · rintro ⟨hr, hn⟩
    obtain ⟨hs, hss⟩ := checkBlock_cons_eq_ok_iff.mp hr
    rw [node_checkBlock_cons_of_ok hs] at hn
    obtain ⟨hs', hss'⟩ := List.cons.inj hn
    exact ⟨⟨hs, hs'⟩, hss, hss'⟩
  · rintro ⟨⟨hs, hs'⟩, hss, hss'⟩
    refine ⟨checkBlock_cons_eq_ok_iff.mpr ⟨hs, hss⟩, ?_⟩
    rw [node_checkBlock_cons_of_ok hs, hs', hss']

/-! ## Settled trees with names replaced -/

mutual

/-- **Replacing names in a settled expression leaves it settled, with the same type.** -/
theorem Settled.positioned : (e : Expr) → ∀ {e' : Expr} {t : Ty}, Γ.Settled e t →
    e.Positioned e' → Γ.Settled e' t
  | .const s c, _, _, h, .const => h
  | .var s x, _, _, h, .var => h
  | .binary s op l r, _, _, h, .binary hl hr => by
    obtain ⟨⟨ht, hslot⟩, hchildren⟩ := settled_iff.mp h
    cases ht with
    | binary hlt hrt hjoins =>
      have hl' := Settled.positioned l
        (settled_of_hasType hlt (hchildren l (by simp [Expr.children]))) hl
      have hr' := Settled.positioned r
        (settled_of_hasType hrt (hchildren r (by simp [Expr.children]))) hr
      refine settled_iff.mpr ⟨⟨.binary hl'.hasType hr'.hasType hjoins, hslot⟩, ?_⟩
      simp [Expr.children, hl'.node, hr'.node]
  | .not s a, _, _, h, .not ha => by
    obtain ⟨⟨ht, hslot⟩, hchildren⟩ := settled_iff.mp h
    cases ht with
    | not hat =>
      have ha' := Settled.positioned a
        (settled_of_hasType hat (hchildren a (by simp [Expr.children]))) ha
      refine settled_iff.mpr ⟨⟨.not ha'.hasType, hslot⟩, ?_⟩
      simp [Expr.children, ha'.node]
  | .get s a f, _, _, h, .get ha hf => by
    obtain ⟨⟨ht, hslot⟩, hchildren⟩ := settled_iff.mp h
    cases ht with
    | get hat hselects =>
      -- the position was found in the type that is recorded, which is the type of the aggregate
      have hsettled := settled_of_hasType hat (hchildren a (by simp [Expr.children]))
      have ha' := Settled.positioned a hsettled ha
      rw [(settled_iff.mp hsettled).1.2] at hf
      refine settled_iff.mpr ⟨⟨.get ha'.hasType (hselects.positioned hf), hslot⟩, ?_⟩
      simp [Expr.children, ha'.node]
  | .set s a f v, _, _, h, .set ha hf hv => by
    obtain ⟨⟨ht, hslot⟩, hchildren⟩ := settled_iff.mp h
    cases ht with
    | set hat hselects hvt =>
      have hsettled := settled_of_hasType hat (hchildren a (by simp [Expr.children]))
      have ha' := Settled.positioned a hsettled ha
      have hv' := Settled.positioned v
        (settled_of_hasType hvt (hchildren v (by simp [Expr.children]))) hv
      rw [(settled_iff.mp hsettled).1.2] at hf
      refine settled_iff.mpr
        ⟨⟨.set ha'.hasType (hselects.positioned hf) hv'.hasType, hslot⟩, ?_⟩
      simp [Expr.children, ha'.node, hv'.node]
  | .deref s p, _, _, h, .deref hp => by
    obtain ⟨⟨ht, hslot⟩, hchildren⟩ := settled_iff.mp h
    cases ht with
    | deref hpt =>
      have hp' := Settled.positioned p
        (settled_of_hasType hpt (hchildren p (by simp [Expr.children]))) hp
      refine settled_iff.mpr ⟨⟨.deref hp'.hasType, hslot⟩, ?_⟩
      simp [Expr.children, hp'.node]
  | .call s name args, _, _, h, .call hargs => by
    obtain ⟨⟨ht, hslot⟩, hchildren⟩ := settled_iff.mp h
    cases ht with
    | call hfind htypes =>
      obtain ⟨htypes', hnodes'⟩ := HaveTypes.positioned args htypes hchildren hargs
      exact settled_iff.mpr ⟨⟨.call hfind htypes', hslot⟩, hnodes'⟩

theorem HaveTypes.positioned : (es : List Expr) → ∀ {es' : List Expr} {ts : List Ty},
    Γ.HaveTypes es ts → (∀ a ∈ es, (Γ.infer a).node = a) → Expr.PositionedAll es es' →
    Γ.HaveTypes es' ts ∧ ∀ a ∈ es', (Γ.infer a).node = a
  | [], _, _, h, hn, .nil => ⟨h, hn⟩
  | e :: es, _, _, .cons he hes, hn, .cons hp hps => by
    have he' := Settled.positioned e (settled_of_hasType he (hn e List.mem_cons_self)) hp
    obtain ⟨htypes, hnodes⟩ :=
      HaveTypes.positioned es hes (fun a ha => hn a (List.mem_cons_of_mem e ha)) hps
    exact ⟨.cons he'.hasType htypes, List.forall_mem_cons.mpr ⟨he'.node, hnodes⟩⟩

end

mutual

theorem SettledStmt.positioned : (s : Stmt) → ∀ {Γ : Context} {s' : Stmt}, Γ.SettledStmt s →
    s.Positioned s' → Γ.SettledStmt s'
  | .define x none, _, _, h, .declare => h
  | .define x (some e), Γ, _, h, .define he => by
    obtain ⟨⟨ht, hexprs⟩, hblocks⟩ := settledStmt_iff.mp h
    cases ht with
    | define hx het =>
      have he' := Settled.positioned e (settled_of_hasType het (hexprs e (by simp [Stmt.exprs]))) he
      refine settledStmt_iff.mpr ⟨⟨.define hx he'.hasType, ?_⟩, hblocks⟩
      simp [Stmt.exprs, he'.node]
  | .assign x e, Γ, _, h, .assign he => by
    obtain ⟨⟨ht, hexprs⟩, hblocks⟩ := settledStmt_iff.mp h
    cases ht with
    | assign hx het =>
      have he' := Settled.positioned e (settled_of_hasType het (hexprs e (by simp [Stmt.exprs]))) he
      refine settledStmt_iff.mpr ⟨⟨.assign hx he'.hasType, ?_⟩, hblocks⟩
      simp [Stmt.exprs, he'.node]
  | .ret none, _, _, h, .leave => h
  | .ret (some e), Γ, _, h, .giveBack he => by
    obtain ⟨⟨ht, hexprs⟩, hblocks⟩ := settledStmt_iff.mp h
    cases ht with
    | giveBack hret het =>
      have he' := Settled.positioned e (settled_of_hasType het (hexprs e (by simp [Stmt.exprs]))) he
      refine settledStmt_iff.mpr ⟨⟨.giveBack hret he'.hasType, ?_⟩, hblocks⟩
      simp [Stmt.exprs, he'.node]
  | .branch c thenBlock elseBlock, Γ, _, h, .branch hc hthen helse => by
    obtain ⟨⟨ht, hexprs⟩, hblocks⟩ := settledStmt_iff.mp h
    cases ht with
    | branch hct _ _ =>
      have hc' := Settled.positioned c (settled_of_hasType hct (hexprs c (by simp [Stmt.exprs]))) hc
      have hthen' := SettledBlock.positioned thenBlock
        (hblocks thenBlock (by simp [Stmt.blocks])) hthen
      have helse' := SettledBlock.positioned elseBlock
        (hblocks elseBlock (by simp [Stmt.blocks])) helse
      refine settledStmt_iff.mpr ⟨⟨.branch hc'.hasType (checkBlock_eq_ok_iff.mp hthen'.result)
        (checkBlock_eq_ok_iff.mp helse'.result), ?_⟩, ?_⟩
      · simp [Stmt.exprs, hc'.node]
      · simp [Stmt.blocks, hthen', helse']
  | .loop c body, Γ, _, h, .loop hc hbody => by
    obtain ⟨⟨ht, hexprs⟩, hblocks⟩ := settledStmt_iff.mp h
    cases ht with
    | loop hct _ =>
      have hc' := Settled.positioned c (settled_of_hasType hct (hexprs c (by simp [Stmt.exprs]))) hc
      have hbody' := SettledBlock.positioned body (hblocks body (by simp [Stmt.blocks])) hbody
      refine settledStmt_iff.mpr
        ⟨⟨.loop hc'.hasType (checkBlock_eq_ok_iff.mp hbody'.result), ?_⟩, ?_⟩
      · simp [Stmt.exprs, hc'.node]
      · simp [Stmt.blocks, hbody']
  | .call name args, Γ, _, h, .call hargs => by
    obtain ⟨⟨ht, hexprs⟩, hblocks⟩ := settledStmt_iff.mp h
    cases ht with
    | call hfind htypes =>
      obtain ⟨htypes', hnodes'⟩ := HaveTypes.positioned args htypes hexprs hargs
      exact settledStmt_iff.mpr ⟨⟨.call hfind htypes', hnodes'⟩, hblocks⟩

/-- **Replacing names in a settled block leaves it settled.** -/
theorem SettledBlock.positioned : (ss : List Stmt) → ∀ {Γ : Context} {ss' : List Stmt},
    Γ.SettledBlock ss → Block.Positioned ss ss' → Γ.SettledBlock ss'
  | [], _, _, h, .nil => h
  | s :: ss, Γ, _, h, .cons hs hss => by
    obtain ⟨hsettled, hrest⟩ := settledBlock_cons_iff.mp h
    have hrest' := SettledBlock.positioned ss hrest hss
    rw [← hs.defines?] at hrest'
    exact settledBlock_cons_iff.mpr ⟨SettledStmt.positioned s hsettled hs, hrest'⟩

end

/-! ## Functions -/

/-- A block that differs from an accepted one in its slots only is accepted too, and left as the same
tree. -/
theorem checkBlock_of_bare_eq {block block' : Block} (hb : Block.bare block' = Block.bare block)
    (h : (Γ.checkBlock block).result = .ok ()) :
    (Γ.checkBlock block').result = .ok () ∧
      (Γ.checkBlock block').node = (Γ.checkBlock block).node := by
  -- both are checked as the bare block is
  have hagrees := checkBlock_bare_agrees block (Γ := Γ)
  have hagrees' := checkBlock_bare_agrees block' (Γ := Γ)
  rw [hb] at hagrees'
  have hbare := hagrees.result.trans h
  exact ⟨hagrees'.result.symm.trans hbare,
    (hagrees'.node () hbare).symm.trans (hagrees.node () hbare)⟩

/-- **What checking leaves of an accepted block is settled.** -/
theorem settledBlock_node_checkBlock {block : Block} (h : (Γ.checkBlock block).result = .ok ()) :
    Γ.SettledBlock (Γ.checkBlock block).node := by
  obtain ⟨hr, hn⟩ := checkBlock_of_bare_eq (bare_node_checkBlock block) h
  exact ⟨hr, hn⟩

theorem coherent_of_mem_nodes_checkBlock {block : Block} (h : (Γ.checkBlock block).result = .ok ())
    {n : Expr} (hn : n ∈ Block.nodes (Γ.checkBlock block).node) : n.Coherent Γ := by
  obtain ⟨s', hs', e, he, hn⟩ := Block.mem_nodes.mp hn
  obtain ⟨xs, s, hs, rfl⟩ := exists_of_mem_stmts_checkBlock h hs'
  exact Expr.coherent_addAll.mp (coherent_of_mem_exprs_checkStmt hs he hn)

/--
**Names can be replaced by positions.**

In a body that was accepted, the aggregate of every node that selects a field by name holds a type in
which the name has a position. However many of the names are replaced by these positions, and
whatever the slots of the result hold, the result is accepted in the same context, and every node
of it gets the type that the node in its place has in the body.
-/
theorem checkFunction_positioned (Γ : Context) (params : List Symbol) (body : Block)
    (h : (Γ.checkFunction params body).result = .ok ()) :
    (∀ n ∈ Block.nodes (Γ.checkFunction params body).node, ∀ a name,
      n.selection? = some (a, .name name) →
        ∃ i, Selector.Positioned a.slot (.name name) (.index i)) ∧
    ∀ target rewritten, Block.Positioned (Γ.checkFunction params body).node target →
      Block.bare rewritten = Block.bare target →
        (Γ.checkFunction params rewritten).result = .ok () ∧
        (Γ.checkFunction params rewritten).node = target ∧
        Block.slots (Γ.checkFunction params rewritten).node =
          Block.slots (Γ.checkFunction params body).node := by
  obtain ⟨hfresh, hbody⟩ := checkFunction_eq_ok_iff.mp h
  rw [node_checkFunction_of_fresh hfresh]
  constructor
  · intro n hn a name hsel
    exact Expr.exists_position_of_coherent (coherent_of_mem_nodes_checkBlock hbody hn) hsel
  · -- what was replaced in the recorded tree is settled, and the slots of `rewritten` do not matter
    intro target rewritten htarget hrewritten
    have hsettled := SettledBlock.positioned _ (settledBlock_node_checkBlock hbody) htarget
    obtain ⟨hr, hn⟩ := checkBlock_of_bare_eq hrewritten hsettled.result
    rw [node_checkFunction_of_fresh hfresh, hn, hsettled.node]
    exact ⟨checkFunction_eq_ok_iff.mpr ⟨hfresh, hr⟩, rfl, htarget.slots⟩

/-- A body that moves the end of a segment before it reads the height of that end. The fields of the
segment and of the point are selected as given, one of them always by name. -/
def movedEnd (slot : Ty → Option Ty) (toEnd toHeight : Selector) : Block :=
  let point : Ty := .struct [("x", .int .w32), ("y", .int .w32)]
  let segment : Ty := .struct [("from", point), ("to", point)]
  let s : Expr := .var (slot segment) ⟨⟨0⟩, "s", segment⟩
  let moved : Expr := .set (slot point) (.get (slot point) s toEnd) toHeight
    (.const (slot (.int .w32)) (.int .w32 7))
  [.ret (some (.get (slot (.int .w32))
    (.get (slot point) (.set (slot segment) s toEnd moved) (.name "to")) toHeight))]

/-- Replacements in a set, in the value that it puts in and in an element that is read from its
result. -/
theorem movedEnd_positioned :
    let point : Ty := .struct [("x", .int .w32), ("y", .int .w32)]
    let params : List Symbol := [⟨⟨0⟩, "s", .struct [("from", point), ("to", point)]⟩]
    let Γ : Context := { returns := .value (.int .w32) }
    let named := movedEnd (fun _ => none) (.name "to") (.name "y")
    let positioned := movedEnd (fun _ => none) (.index 1) (.index 1)
    (Γ.checkFunction params named).result = .ok () ∧
      Block.Positioned (Γ.checkFunction params named).node
        (movedEnd some (.index 1) (.index 1)) ∧
      (Γ.checkFunction params positioned).result = .ok () ∧
      Block.slots (Γ.checkFunction params positioned).node =
        Block.slots (Γ.checkFunction params named).node := by
  intro point params Γ named positioned
  have hok : (Γ.checkFunction params named).result = .ok () := rfl
  have hnode : (Γ.checkFunction params named).node = movedEnd some (.name "to") (.name "y") := rfl
  have htarget : Block.Positioned (Γ.checkFunction params named).node
      (movedEnd some (.index 1) (.index 1)) := by
    rw [hnode]
    refine .cons (.giveBack (.get (.get (.set .var ?_ (.set (.get .var ?_) ?_ .const)) .keep) ?_)) .nil
    all_goals exact .position rfl rfl
  obtain ⟨hr, -, hslots⟩ :=
    (checkFunction_positioned Γ params named hok).2 _ positioned htarget rfl
  exact ⟨hok, htarget, hr, hslots⟩

end Context

end BlockLang
