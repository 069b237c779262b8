import BlockLang.Proofs.Log.Visiting
import BlockLang.Proofs.Scoping.Effect
import BlockLang.Proofs.Scoping.Place
import BlockLang.Proofs.Typing.Checking
import BlockLang.Proofs.Typing.Fault

/-!
# Where the walk halts

A bad verdict ends the walk through a tree, and the place is determined by the tree and its context.
Either the part that is looked at is at fault itself, which is noticed when some of the parts inside
it have been visited; or its parts are visited up to the first one that is not well typed, and the
walk halts inside that one. `Part.Halts` says so in terms of the typing judgements and of faults,
and there is one list of stops at most that it allows (`Part.Halts.unique`).

* `Part.refused_of_verdict` — one refused part: it is at fault, or one of the parts inside it is
  refused, and the events are those of its entry and of the parts that were visited;
* `Part.exists_halts` — typing a refused part reports the stops up to where the walk halts, and the
  last statement among them is the first one whose head is refused.
-/

namespace BlockLang

namespace Part

variable {p c : Part} {Γ : Context} {err : TypeError} {seen : List Stop} {j k n : Nat}
  {known : Nat → Context}

/-! ## Halting -/

/-- The part is well typed. -/
def Typed (Γ : Context) : Part → Prop
  | block b => Γ.BlockTyped b
  | stmt s => ∃ Δ, Γ.StmtTyped s Δ
  | node e => ∃ t, Γ.HasType e t

/-- The part is wrong in the way that the error describes, the parts inside it apart. -/
def Faulty (Γ : Context) (err : TypeError) : Part → Prop
  | block _ => False
  | stmt s => Γ.StmtFault s err
  | node e => Γ.ExprFault e err

/-- How many of the parts directly inside have been visited when the part is at fault itself. -/
def childrenSeen (err : TypeError) : Part → Nat
  | block _ => 0
  | stmt s => s.exprsSeen err
  | node e => e.childrenSeen err

/-- The first `n` of the parts directly inside are well typed, each in its own context. -/
def TypedFirst (Γ : Context) (p : Part) (n : Nat) : Prop :=
  ∀ i < n, ∀ c, p.children[i]? = some c → c.Typed (contextOf Γ p i)

/-- The stop that comes before all that is inside: a statement is reported when it is entered. -/
def entry (Γ : Context) : Part → List Stop
  | stmt s => [⟨[], Γ, stmt s⟩]
  | _ => []

/-- The stops until the first `n` of the parts directly inside have been visited. -/
def walkFirst (Γ : Context) (p : Part) (n : Nat) : List Stop :=
  p.entry Γ ++ walkFrom (contextOf Γ p) 0 (p.children.take n)

/-- The walk through the part halts with the error, behind these stops. -/
inductive Halts (err : TypeError) : Context → Part → List Stop → Prop
  /-- The part is at fault, and what is visited before that is noticed is well typed. -/
  | fault {Γ : Context} {p : Part} :
      p.Faulty Γ err → p.TypedFirst Γ (p.childrenSeen err) →
      Halts err Γ p (p.walkFirst Γ (p.childrenSeen err))
  /-- The `j`-th part directly inside is the first one that is not well typed, and the walk halts in
  it: a fault of the part itself, if there is one, would be noticed behind the `j`-th part only. -/
  | inside {Γ : Context} {p c : Part} {j : Nat} {inner : List Stop} :
      p.children[j]? = some c → p.TypedFirst Γ j → ¬ c.Typed (contextOf Γ p j) →
      (∀ other, p.Faulty Γ other → j < p.childrenSeen other) →
      Halts err (contextOf Γ p j) c inner →
      Halts err Γ p (p.walkFirst Γ j ++ inner.map (.below j))

/-- **There is one place at most where the walk halts with an error.** -/
theorem Halts.unique {stops : List Stop} (h : p.Halts err Γ seen) (h' : p.Halts err Γ stops) :
    seen = stops := by
  induction h generalizing stops with
  | fault hfault htyped =>
    cases h' with
    | fault _ _ => rfl
    | inside hc _ hne hlate _ => exact absurd (htyped _ (hlate err hfault) _ hc) hne
  | @inside Γ p c j inner hc htyped hne hlate _ ih =>
    cases h' with
    | fault hfault htyped' => exact absurd (htyped' j (hlate err hfault) c hc) hne
    | @inside _ _ d i _ hd htyped' hne' _ hinner =>
      rcases Nat.lt_trichotomy j i with hlt | rfl | hlt
      · exact absurd (htyped' j hlt c hc) hne
      · rw [hc] at hd
        cases hd
        rw [ih hinner]
      · exact absurd (htyped i hlt d hd) hne'

/-! ## Halting on the walk -/

theorem walkFrom_append (cs ds : List Part) :
    walkFrom known k (cs ++ ds) = walkFrom known k cs ++ walkFrom known (k + cs.length) ds := by
  induction cs generalizing k with
  | nil => rfl
  | cons c cs ih =>
    have hk : k + 1 + cs.length = k + (cs.length + 1) := by omega
    rw [List.cons_append, walkFrom, walkFrom, ih, List.append_assoc, List.length_cons, hk]

theorem length_take_of_child (hc : p.children[j]? = some c) : (p.children.take j).length = j := by
  have hj : j < p.children.length := (List.getElem?_eq_some_iff.mp hc).1
  rw [List.length_take]
  omega

theorem take_succ_of_child (hc : p.children[j]? = some c) :
    p.children.take (j + 1) = p.children.take j ++ [c] := by
  rw [List.take_add_one, hc, Option.toList_some]

theorem walkFirst_succ (hc : p.children[j]? = some c) :
    p.walkFirst Γ (j + 1) =
      p.walkFirst Γ j ++ (c.walk (contextOf Γ p j)).map (.below j) := by
  rw [walkFirst, walkFirst, take_succ_of_child hc, walkFrom_append, length_take_of_child hc,
    Nat.zero_add, walkFrom, walkFrom, List.append_nil, List.append_assoc]

/-- Going through the first parts inside is the beginning of the walk. -/
theorem walkFirst_append (p : Part) (Γ : Context) (n : Nat) :
    ∃ rest, p.walk Γ = p.walkFirst Γ n ++ rest := by
  have hsplit : walkFrom (contextOf Γ p) 0 (p.children.take n ++ p.children.drop n) = _ :=
    walkFrom_append (p.children.take n) (p.children.drop n)
  rw [List.take_append_drop] at hsplit
  cases p with
  | block b => exact ⟨_, by rw [walk_block, hsplit]; rfl⟩
  | stmt s => exact ⟨_, by rw [walk_stmt, hsplit]; rfl⟩
  | node e => exact ⟨_, by rw [walk_node, hsplit, List.append_assoc]; rfl⟩

/-- **What lies in front of the place where the walk halts is the beginning of the walk.** -/
theorem Halts.walk_eq (h : p.Halts err Γ seen) : ∃ rest, p.walk Γ = seen ++ rest := by
  induction h with
  | fault _ _ => exact walkFirst_append _ _ _
  | @inside Γ p c j inner hc _ _ _ _ ih =>
    obtain ⟨rest, hrest⟩ := ih
    obtain ⟨behind, hbehind⟩ := walkFirst_append p Γ (j + 1)
    rw [walkFirst_succ hc, hrest, List.map_append] at hbehind
    exact ⟨rest.map (.below j) ++ behind, by rw [hbehind]; simp only [List.append_assoc]⟩

/-! ## Verdicts and events of parts -/

/-- The verdict on a part. -/
def verdict (Γ : Context) : Part → Except TypeError Unit
  | block b => (Γ.checkBlock b).result
  | stmt s => (Γ.checkStmt s).result
  | node e => (Γ.infer e).result.map fun _ => ()

/-- What is reported when a part is visited. -/
def log (Γ : Context) : Part → List Event
  | block b => (Γ.checkBlock b).log
  | stmt s => (Γ.checkStmt s).log
  | node e => (Γ.infer e).log

/-- What is reported before all that is inside. -/
def entryLog : Part → List Event
  | stmt s => [.enterStmt s.kind]
  | _ => []

theorem typed_iff : p.Typed Γ ↔ p.verdict Γ = .ok () := by
  cases p with
  | block b => exact Context.checkBlock_eq_ok_iff.symm
  | stmt s =>
    have hblocks : (∀ b ∈ s.blocks, (Γ.checkBlock b).result = .ok ()) ↔
        ∀ b ∈ s.blocks, Γ.BlockTyped b :=
      forall₂_congr fun _ _ => Context.checkBlock_eq_ok_iff
    show (∃ Δ, Γ.StmtTyped s Δ) ↔ (Γ.checkStmt s).result = .ok ()
    rw [Context.checkStmt_eq_ok_iff, hblocks]
    simp only [Context.stmtTyped_iff, exists_and_left, exists_eq, and_true]
  | node e =>
    show (∃ t, Γ.HasType e t) ↔ (Γ.infer e).result.map (fun _ => ()) = .ok ()
    simp only [Except.map_eq_ok_iff, and_true, Context.infer_eq_ok_iff]

theorem verdict_node_eq_error_iff {e : Expr} :
    (node e).verdict Γ = .error err ↔ (Γ.infer e).result = .error err :=
  Except.map_eq_error_iff

end Part

/-! ## Refused statements and blocks -/

namespace Context

variable {Γ : Context} {s : Stmt} {block : Block} {err : TypeError}

/--
**A refused statement fails in its head, or in one of the blocks inside it.**

In the second case the head is accepted, so that the statement is not at fault itself, and so are
the blocks in front.
-/
theorem checkStmt_error_step (h : (Γ.checkStmt s).result = .error err) :
    Γ.headVerdict s = .error err ∧ (Γ.checkStmt s).log = .enterStmt s.kind :: Γ.headLog s ∨
      Γ.headVerdict s = .ok () ∧ (∀ other, ¬ Γ.StmtFault s other) ∧
        ∃ (i : Nat) (b : Block), s.blocks[i]? = some b ∧
          (∀ b' ∈ s.blocks.take i, (Γ.checkBlock b').result = .ok ()) ∧
          (Γ.checkBlock b).result = .error err ∧
          (Γ.checkStmt s).log = .enterStmt s.kind :: (Γ.logFirst s.exprs.length s.exprs ++
            (s.blocks.take (i + 1)).flatMap fun b => (Γ.checkBlock b).log) := by
  cases s with
  | branch condition thenBlock elseBlock =>
    rw [checkStmt] at h ⊢
    dsimp only [Passage.entering, Passage.keeping, Visit.entering] at h ⊢
    rcases Visit.andThen_eq_error_iff.mp h with hc | ⟨_, hc, h⟩
    · rw [Visit.andThen_error hc]
      exact Or.inl ⟨hc, rfl⟩
    · have hbool := infer_eq_ok_iff.mp (checkCondition_eq_ok_iff.mp hc)
      rw [Visit.andThen_ok hc, log_checkCondition]
      refine Or.inr ⟨hc, ?_, ?_⟩
      · intro other hfault
        cases hfault with
        | branch hfound hne => exact hne (hfound.unique hbool)
      rcases Visit.andThen_eq_error_iff.mp h with ht | ⟨_, ht, he⟩
      · rw [Visit.andThen_error ht]
        exact ⟨0, thenBlock, rfl, by simp, ht, by simp [Stmt.kind, Stmt.exprs, Stmt.blocks]⟩
      · rw [Visit.andThen_ok ht]
        refine ⟨1, elseBlock, rfl, ?_, he, by simp [Stmt.kind, Stmt.exprs, Stmt.blocks]⟩
        intro b hb
        rw [List.mem_singleton.mp hb]
        exact ht
  | loop condition body =>
    rw [checkStmt] at h ⊢
    dsimp only [Passage.entering, Passage.keeping, Visit.entering] at h ⊢
    rcases Visit.andThen_eq_error_iff.mp h with hc | ⟨_, hc, hb⟩
    · rw [Visit.andThen_error hc]
      exact Or.inl ⟨hc, rfl⟩
    · have hbool := infer_eq_ok_iff.mp (checkCondition_eq_ok_iff.mp hc)
      rw [Visit.andThen_ok hc, log_checkCondition]
      refine Or.inr ⟨hc, ?_, 0, body, rfl, by simp, hb,
        by simp [Stmt.kind, Stmt.exprs, Stmt.blocks]⟩
      intro other hfault
      cases hfault with
      | loop hfound hne => exact hne (hfound.unique hbool)
  | _ =>
    rw [result_checkStmt_of_blocks_eq_nil rfl] at h
    refine Or.inl ⟨h, ?_⟩
    rw [checkStmt]
    rfl

end Context

namespace Part

variable {p c : Part} {Γ : Context} {err : TypeError} {j k n : Nat}

/-! ## What is reported in front -/

/-- Typing reports the whole walk through a part that is well typed. -/
theorem reports_of_typed (h : p.Typed Γ) : List.Forall₂ Stop.Reports (p.walk Γ) (p.log Γ) := by
  have hok := typed_iff.mp h
  cases p with
  | block b => exact (@Context.checkBlock_walks b Γ [] 0).reports_of_ok hok
  | stmt s => exact (@Context.checkStmt_walks s Γ []).reports_of_ok hok
  | node e =>
    obtain ⟨t, ht, -⟩ := Except.map_eq_ok_iff.mp hok
    exact (@Context.infer_walks Γ e []).reports_of_ok ht

theorem reports_walkFrom {cs : List Part} (h : ∀ c ∈ cs, c.Typed Γ) :
    List.Forall₂ Stop.Reports (walkFrom (fun _ => Γ) k cs) (cs.flatMap (log Γ)) := by
  induction cs generalizing k with
  | nil => exact .nil
  | cons c cs ih =>
    rw [walkFrom, List.flatMap_cons]
    refine List.rel_append (Stop.reports_map_below k (reports_of_typed (h c List.mem_cons_self))) ?_
    exact ih fun d hd => h d (List.mem_cons_of_mem c hd)

theorem reports_entry (p : Part) : List.Forall₂ Stop.Reports (p.entry Γ) p.entryLog := by
  cases p with
  | stmt s => exact .cons .entered .nil
  | _ => exact .nil

/-- In a statement and in a node the context is the same everywhere. -/
theorem reports_walkFirst (hp : ∀ b, p ≠ block b) (h : p.TypedFirst Γ n) :
    List.Forall₂ Stop.Reports (p.walkFirst Γ n)
      (p.entryLog ++ (p.children.take n).flatMap (log Γ)) := by
  have hcontext : contextOf Γ p = fun _ => Γ := by
    cases p with
    | block b => exact absurd rfl (hp b)
    | _ => rfl
  refine List.rel_append (reports_entry p) ?_
  rw [hcontext]
  refine reports_walkFrom fun c hc => ?_
  obtain ⟨i, hi⟩ := List.mem_iff_getElem?.mp hc
  rw [List.getElem?_take, Option.ite_none_right_eq_some] at hi
  have htyped := h i hi.1 c hi.2
  rw [hcontext] at htyped
  exact htyped

theorem logFirst_eq_flatMap (n : Nat) (es : List Expr) :
    Γ.logFirst n es = ((es.map node).take n).flatMap (log Γ) := by
  rw [Context.logFirst, ← List.map_take, List.flatMap_map]
  rfl

/-! ## One refused part -/

/-- What a refusal of the part comes to: it is at fault, or one of the parts inside it is refused.
The parts in front are well typed and, with the entry, make up what was reported before. -/
inductive Refused (err : TypeError) (Γ : Context) (p : Part) : Prop
  | fault :
      p.Faulty Γ err → p.TypedFirst Γ (p.childrenSeen err) →
      List.Forall₂ Stop.Reports (p.walkFirst Γ (p.childrenSeen err)) (p.log Γ) → Refused err Γ p
  | inside {j : Nat} {c : Part} {before : List Event} :
      p.children[j]? = some c → p.TypedFirst Γ j → c.verdict (contextOf Γ p j) = .error err →
      (∀ other, p.Faulty Γ other → j < p.childrenSeen other) →
      List.Forall₂ Stop.Reports (p.walkFirst Γ j) before →
      p.log Γ = before ++ c.log (contextOf Γ p j) → Refused err Γ p

section Step

variable {s : Stmt} {e : Expr} {b : Block}

theorem refused_fault (hp : ∀ b, p ≠ block b) (hfault : p.Faulty Γ err)
    (htyped : p.TypedFirst Γ (p.childrenSeen err))
    (hlog : p.log Γ = p.entryLog ++ (p.children.take (p.childrenSeen err)).flatMap (log Γ)) :
    p.Refused err Γ :=
  .fault hfault htyped (hlog ▸ reports_walkFirst hp htyped)

theorem refused_inside (hp : ∀ b, p ≠ block b) (hc : p.children[j]? = some c)
    (htyped : p.TypedFirst Γ j) (hverdict : c.verdict Γ = .error err)
    (hlate : ∀ other, p.Faulty Γ other → j < p.childrenSeen other)
    (hlog : p.log Γ = p.entryLog ++ (p.children.take (j + 1)).flatMap (log Γ)) :
    p.Refused err Γ := by
  have hcontext : contextOf Γ p j = Γ := by
    cases p with
    | block b => exact absurd rfl (hp b)
    | _ => rfl
  rw [take_succ_of_child hc, List.flatMap_append, List.flatMap_singleton,
    ← List.append_assoc] at hlog
  rw [← hcontext] at hverdict
  refine .inside hc htyped hverdict hlate (reports_walkFirst hp htyped) ?_
  rw [hlog, hcontext]

theorem child_node_iff : (node e).children[j]? = some c ↔
    ∃ a, e.children[j]? = some a ∧ node a = c := by
  show (e.children.map node)[j]? = some c ↔ _
  rw [List.getElem?_map, Option.map_eq_some_iff]

theorem child_block_iff : (block b).children[j]? = some c ↔ ∃ s, b[j]? = some s ∧ stmt s = c := by
  show (b.map stmt)[j]? = some c ↔ _
  rw [List.getElem?_map, Option.map_eq_some_iff]

/-- The parts directly inside a statement are its expressions, and behind them its blocks. -/
theorem child_stmt_iff : (stmt s).children[j]? = some c ↔
    (∃ a, s.exprs[j]? = some a ∧ node a = c) ∨
      ∃ (i : Nat) (b : Block), j = s.exprs.length + i ∧ s.blocks[i]? = some b ∧ block b = c := by
  show (s.exprs.map node ++ s.blocks.map block)[j]? = some c ↔ _
  by_cases hj : j < s.exprs.length
  · rw [List.getElem?_append_left (by rw [List.length_map]; exact hj), List.getElem?_map,
      Option.map_eq_some_iff]
    constructor
    · exact Or.inl
    · rintro (h | ⟨i, b, rfl, -⟩)
      · exact h
      · omega
  · rw [List.getElem?_append_right (by rw [List.length_map]; omega), List.getElem?_map,
      Option.map_eq_some_iff, List.length_map]
    constructor
    · rintro ⟨b, hb, hc⟩
      exact Or.inr ⟨j - s.exprs.length, b, by omega, hb, hc⟩
    · rintro (⟨a, ha, -⟩ | ⟨i, b, rfl, hb, hc⟩)
      · exact absurd (List.getElem?_eq_some_iff.mp ha).1 hj
      · rw [Nat.add_sub_cancel_left]
        exact ⟨b, hb, hc⟩

theorem typedFirst_node (h : Γ.TypedFirst n e.children) : (node e).TypedFirst Γ n := by
  intro i hi c hc
  obtain ⟨a, ha, rfl⟩ := child_node_iff.mp hc
  obtain ⟨t, ht⟩ := Context.exists_infer_of_typedFirst h hi ha
  exact ⟨t, Context.infer_eq_ok_iff.mp ht⟩

theorem typedFirst_exprs (h : Γ.TypedFirst n s.exprs) (hn : n ≤ s.exprs.length) :
    (stmt s).TypedFirst Γ n := by
  intro i hi c hc
  rcases child_stmt_iff.mp hc with ⟨a, ha, rfl⟩ | ⟨k, b, rfl, -⟩
  · obtain ⟨t, ht⟩ := Context.exists_infer_of_typedFirst h hi ha
    exact ⟨t, Context.infer_eq_ok_iff.mp ht⟩
  · omega

theorem refused_node (h : (Γ.infer e).result = .error err) : (node e).Refused err Γ := by
  rcases Context.infer_error_step h with
    ⟨j, ⟨htyped, a, ha, he⟩, hlate, hleft⟩ | ⟨hfault, htyped, hleft⟩
  · refine refused_inside nofun (child_node_iff.mpr ⟨a, ha, rfl⟩) (typedFirst_node htyped)
      (verdict_node_eq_error_iff.mpr he) hlate ?_
    exact hleft.log.trans (logFirst_eq_flatMap _ _)
  · refine refused_fault nofun hfault (typedFirst_node htyped) ?_
    exact hleft.log.trans (logFirst_eq_flatMap _ _)

theorem take_children_stmt (hn : n ≤ s.exprs.length) :
    (stmt s).children.take n = (s.exprs.map node).take n :=
  List.take_append_of_le_length (by rw [List.length_map]; exact hn)

theorem log_stmt_of_exprs (hn : n ≤ s.exprs.length)
    (h : (Γ.checkStmt s).log = .enterStmt s.kind :: Γ.logFirst n s.exprs) :
    (stmt s).log Γ = (stmt s).entryLog ++ ((stmt s).children.take n).flatMap (log Γ) := by
  rw [take_children_stmt hn, ← logFirst_eq_flatMap]
  exact h

theorem log_stmt_of_blocks
    (h : (Γ.checkStmt s).log = .enterStmt s.kind :: (Γ.logFirst s.exprs.length s.exprs ++
      (s.blocks.take n).flatMap fun b => (Γ.checkBlock b).log)) :
    (stmt s).log Γ = (stmt s).entryLog ++
      ((stmt s).children.take (s.exprs.length + n)).flatMap (log Γ) := by
  have htake : (stmt s).children.take (s.exprs.length + n) =
      (s.exprs.map node).take s.exprs.length ++ (s.blocks.take n).map block := by
    have hlength : s.exprs.length = (s.exprs.map node).length := (List.length_map _).symm
    rw [hlength, List.take_length, List.map_take]
    exact List.take_length_add_append n
  rw [htake, List.flatMap_append, ← logFirst_eq_flatMap, List.flatMap_map]
  exact h

/-- The expressions of a statement with an accepted head and the accepted blocks in it. -/
theorem typedFirst_blocks (hhead : Γ.headVerdict s = .ok ())
    (hblocks : ∀ b ∈ s.blocks.take n, (Γ.checkBlock b).result = .ok ()) :
    (stmt s).TypedFirst Γ (s.exprs.length + n) := by
  intro i hi c hc
  rcases child_stmt_iff.mp hc with ⟨a, ha, rfl⟩ | ⟨k, b, rfl, hb, rfl⟩
  · obtain ⟨t, ht⟩ := Context.exists_infer_of_mem_exprs hhead a (List.mem_of_getElem? ha)
    exact ⟨t, Context.infer_eq_ok_iff.mp ht⟩
  · have hk : (s.blocks.take n)[k]? = some b := by
      rw [List.getElem?_take_of_lt (by omega)]
      exact hb
    exact Context.checkBlock_eq_ok_iff.mp (hblocks b (List.mem_of_getElem? hk))

theorem refused_stmt (h : (Γ.checkStmt s).result = .error err) : (stmt s).Refused err Γ := by
  rcases Context.checkStmt_error_step h with
    ⟨hhead, hlog⟩ | ⟨hhead, hnone, i, b, hb, hbefore, he, hlog⟩
  · rcases Context.headVerdict_error_step hhead with
      ⟨j, ⟨htyped, a, ha, he⟩, hlate, hexprs⟩ | ⟨hfault, htyped, hexprs⟩
    · have hj : j < s.exprs.length := (List.getElem?_eq_some_iff.mp ha).1
      rw [hexprs] at hlog
      exact refused_inside nofun (child_stmt_iff.mpr (Or.inl ⟨a, ha, rfl⟩))
        (typedFirst_exprs htyped (Nat.le_of_lt hj)) (verdict_node_eq_error_iff.mpr he) hlate
        (log_stmt_of_exprs hj hlog)
    · have hseen := hfault.exprsSeen_le
      rw [hexprs] at hlog
      exact refused_fault nofun hfault (typedFirst_exprs htyped hseen)
        (log_stmt_of_exprs hseen hlog)
  · exact refused_inside nofun (child_stmt_iff.mpr (Or.inr ⟨i, b, rfl, hb, rfl⟩))
      (typedFirst_blocks hhead hbefore) he (fun other hfault => absurd hfault (hnone other))
      (log_stmt_of_blocks hlog)

/-- A block has no fault of its own: it fails in its first statement that is refused. -/
theorem refused_block (h : (Γ.checkBlock b).result = .error err) : (block b).Refused err Γ := by
  obtain ⟨i, hi⟩ := Context.exists_failsAt h
  obtain ⟨-, s, hs, he, -, hlog⟩ := hi.outcome
  rw [Context.context_checkBlock_of_ok hi.1] at he hlog
  have hc : (block b).children[i]? = some (stmt s) := child_block_iff.mpr ⟨s, hs, rfl⟩
  have hfront : (Γ.checkBlock (b.take i)).result = .ok () := hi.1
  refine .inside hc ?_ he nofun ?_ hlog
  · intro k hk c hc
    obtain ⟨r, hr, rfl⟩ := child_block_iff.mp hc
    have hr' : (b.take i)[k]? = some r := by
      rw [List.getElem?_take_of_lt hk]
      exact hr
    have hok := Context.checkStmt_of_checkBlock_ok hfront hr'
    rw [List.take_take, Nat.min_eq_left (Nat.le_of_lt hk)] at hok
    exact typed_iff.mpr hok
  · have hwalk : (block b).walkFirst Γ i = (block (b.take i)).walk Γ := by
      show walkFrom (contextOf Γ (block b)) 0 ((b.map stmt).take i) = Block.walkFrom Γ 0 (b.take i)
      rw [← List.map_take]
      exact (walkFrom_stmts (k := 0) b (b.take i) (List.take_prefix i b)).symm
    rw [hwalk]
    exact reports_of_typed (typed_iff.mpr hfront)

/-- **A refused part is at fault, or one of the parts inside it is refused.** -/
theorem refused_of_verdict (h : p.verdict Γ = .error err) : p.Refused err Γ := by
  cases p with
  | block b => exact refused_block h
  | stmt s => exact refused_stmt h
  | node e => exact refused_node (verdict_node_eq_error_iff.mp h)

end Step

end Part

/-! ## The last statement -/

namespace Stop

variable {front stops : List Stop} {err : TypeError}

/-- The heads of all statements among the stops are accepted. -/
def HeadsAccepted (stops : List Stop) : Prop :=
  ∀ stop ∈ stops, ∀ s, stop.part = .stmt s → stop.context.headVerdict s = .ok ()

/-- The last statement among the stops is the first one whose head is refused, with the error. -/
def EndsRefused (err : TypeError) (stops : List Stop) : Prop :=
  ∃ (front nodes : List Stop) (a : List Nat) (Γ : Context) (s : Stmt),
    stops = front ++ ⟨a, Γ, .stmt s⟩ :: nodes ∧ HeadsAccepted front ∧
      Γ.headVerdict s = .error err ∧ stmts nodes = []

theorem headsAccepted_append (hfront : HeadsAccepted front) (h : HeadsAccepted stops) :
    HeadsAccepted (front ++ stops) := by
  intro stop hstop s hs
  rcases List.mem_append.mp hstop with hstop | hstop
  · exact hfront stop hstop s hs
  · exact h stop hstop s hs

theorem headsAccepted_map_below (i : Nat) (h : HeadsAccepted stops) :
    HeadsAccepted (stops.map (.below i)) := by
  intro stop hstop s hs
  obtain ⟨inner, hinner, rfl⟩ := List.mem_map.mp hstop
  exact h inner hinner s hs

theorem EndsRefused.inside (i : Nat) (hfront : HeadsAccepted front) (h : EndsRefused err stops) :
    EndsRefused err (front ++ stops.map (.below i)) := by
  obtain ⟨before, nodes, a, Γ, s, rfl, hbefore, hs, hnodes⟩ := h
  refine ⟨front ++ before.map (.below i), nodes.map (.below i), i :: a, Γ, s, ?_,
    headsAccepted_append hfront (headsAccepted_map_below i hbefore), hs, ?_⟩
  · rw [List.map_append, List.map_cons, List.append_assoc]
    rfl
  · rw [stmts_map_below]
    exact hnodes

end Stop

namespace Part

variable {p c : Part} {Γ : Context} {err : TypeError} {j n : Nat}

theorem not_typed_of_error (h : p.verdict Γ = .error err) : ¬ p.Typed Γ := by
  intro hp
  rw [typed_iff.mp hp] at h
  cases h

/-- What is inside a well-typed part is well typed. -/
theorem typed_child (h : p.Typed Γ) (hc : p.children[j]? = some c) :
    c.Typed (contextOf Γ p j) := by
  cases p with
  | block b =>
    obtain ⟨s, hs, rfl⟩ := child_block_iff.mp hc
    exact typed_iff.mpr (Context.checkStmt_of_checkBlock_ok (typed_iff.mp h) hs)
  | stmt s =>
    obtain ⟨hhead, hblocks⟩ := Context.checkStmt_eq_ok_iff.mp (typed_iff.mp h)
    have hfirst := typedFirst_blocks hhead (n := s.blocks.length) fun b hb =>
      hblocks b (List.mem_of_mem_take hb)
    refine hfirst j ?_ c hc
    have hj : j < (s.exprs.map node ++ s.blocks.map block).length :=
      (List.getElem?_eq_some_iff.mp hc).1
    rw [List.length_append, List.length_map, List.length_map] at hj
    exact hj
  | node e =>
    obtain ⟨t, ht⟩ := h
    obtain ⟨a, ha, rfl⟩ := child_node_iff.mp hc
    obtain ⟨u, hu⟩ := Context.exists_infer_of_child (Context.infer_eq_ok_iff.mpr ht) a
      (List.mem_of_getElem? ha)
    exact ⟨u, Context.infer_eq_ok_iff.mp hu⟩

/-- The heads of all statements in a well-typed part are accepted. -/
theorem headsAccepted_walk (h : p.Typed Γ) : Stop.HeadsAccepted (p.walk Γ) := by
  induction p using induction_children generalizing Γ with
  | step p ih =>
    intro stop hstop s hs
    rcases mem_walk.mp hstop with ⟨-, rfl⟩ | ⟨i, c, hc, inner, hinner, rfl⟩
    · have hp : p = stmt s := hs
      subst hp
      exact (Context.checkStmt_eq_ok_iff.mp (typed_iff.mp h)).1
    · exact ih c (List.mem_of_getElem? hc) (typed_child h hc) inner hinner s hs

theorem headsAccepted_walkFirst (hentry : Stop.HeadsAccepted (p.entry Γ))
    (h : p.TypedFirst Γ n) : Stop.HeadsAccepted (p.walkFirst Γ n) := by
  refine Stop.headsAccepted_append hentry fun stop hstop s hs => ?_
  obtain ⟨i, c, hc, inner, hinner, rfl⟩ := mem_walkFrom.mp hstop
  rw [Nat.zero_add] at hinner
  rw [List.getElem?_take, Option.ite_none_right_eq_some] at hc
  exact headsAccepted_walk (h i hc.1 c hc.2) inner hinner s hs

section Statement

variable {s : Stmt} {a : Expr} {b : Block} {inner : List Stop}

/-- A statement whose expressions are being visited has no statement inside it yet. -/
theorem stmts_walkFrom_exprs (hn : n ≤ s.exprs.length) :
    Stop.stmts (walkFrom (contextOf Γ (stmt s)) 0 ((stmt s).children.take n)) = [] := by
  rw [take_children_stmt hn, ← List.map_take]
  show Stop.stmts (walkFrom (fun _ => Γ) 0 ((s.exprs.take n).map node)) = []
  rw [← walkFrom_nodes, Stop.stmts_walkFrom_exprs]

theorem Halts.stmts_node (h : (node a).Halts err Γ inner) : Stop.stmts inner = [] := by
  obtain ⟨rest, hrest⟩ := h.walk_eq
  have hnone : Stop.stmts (Expr.walkFrom Γ 0 [a]) = [] := Stop.stmts_walkFrom_exprs [a]
  rw [Expr.walkFrom, Expr.walkFrom, List.append_nil, Stop.stmts_map_below] at hnone
  rw [show a.walk Γ = inner ++ rest from hrest, Stop.stmts_append] at hnone
  exact (List.append_eq_nil_iff.mp hnone).1

theorem endsRefused_fault (h : (Γ.checkStmt s).result = .error err)
    (hfault : Γ.StmtFault s err) :
    Stop.EndsRefused err ((stmt s).walkFirst Γ (s.exprsSeen err)) := by
  rcases Context.checkStmt_error_step h with ⟨hhead, -⟩ | ⟨-, hnone, -⟩
  · exact ⟨[], _, [], Γ, s, rfl, nofun, hhead, stmts_walkFrom_exprs hfault.exprsSeen_le⟩
  · exact absurd hfault (hnone err)

theorem endsRefused_expr (h : (Γ.checkStmt s).result = .error err) (ha : s.exprs[j]? = some a)
    (he : (Γ.infer a).result = .error err) (hinner : (node a).Halts err Γ inner) :
    Stop.EndsRefused err ((stmt s).walkFirst Γ j ++ inner.map (.below j)) := by
  have hj : j < s.exprs.length := (List.getElem?_eq_some_iff.mp ha).1
  rcases Context.checkStmt_error_step h with ⟨hhead, -⟩ | ⟨hhead, -⟩
  · have hnodes : Stop.stmts (walkFrom (contextOf Γ (stmt s)) 0 ((stmt s).children.take j) ++
        inner.map (.below j)) = [] := by
      rw [Stop.stmts_append, stmts_walkFrom_exprs (Nat.le_of_lt hj), Stop.stmts_map_below,
        hinner.stmts_node, List.append_nil]
    exact ⟨[], _, [], Γ, s, rfl, nofun, hhead, hnodes⟩
  · obtain ⟨t, ht⟩ := Context.exists_infer_of_mem_exprs hhead a (List.mem_of_getElem? ha)
    rw [ht] at he
    cases he

/-- The head is accepted if the walk gets to a block. -/
theorem headVerdict_of_typedFirst (htyped : (stmt s).TypedFirst Γ j) (hj : s.exprs.length ≤ j)
    (hlate : ∀ other, Γ.StmtFault s other → j < s.exprsSeen other) :
    Γ.headVerdict s = .ok () := by
  cases hhead : Γ.headVerdict s with
  | ok _ => rfl
  | error other =>
    rcases Context.headVerdict_error_cases hhead with ⟨a, ha, he⟩ | hfault
    · obtain ⟨i, hi⟩ := List.mem_iff_getElem?.mp ha
      have hlt : i < s.exprs.length := (List.getElem?_eq_some_iff.mp hi).1
      obtain ⟨t, ht⟩ : ∃ t, Γ.HasType a t :=
        htyped i (by omega) (node a) (child_stmt_iff.mpr (Or.inl ⟨a, hi, rfl⟩))
      rw [Context.infer_eq_ok_iff.mpr ht] at he
      cases he
    · have hseen := hfault.exprsSeen_le
      have hnoticed := hlate other hfault
      omega

end Statement

/--
**Typing a refused part reports the stops up to where the walk halts.**

Unless the part is a node, the last statement that was entered is the first one whose head is
refused.
-/
theorem exists_halts (h : p.verdict Γ = .error err) :
    ∃ seen, p.Halts err Γ seen ∧ List.Forall₂ Stop.Reports seen (p.log Γ) ∧
      ((∀ e, p ≠ node e) → Stop.EndsRefused err seen) := by
  induction p using induction_children generalizing Γ with
  | step p ih =>
    cases refused_of_verdict h with
    | fault hfault htyped hreports =>
      refine ⟨_, .fault hfault htyped, hreports, fun hp => ?_⟩
      cases p with
      | block b => cases hfault
      | stmt s => exact endsRefused_fault h hfault
      | node e => exact absurd rfl (hp e)
    | @inside j c before hc htyped hverdict hlate hreports hlog =>
      obtain ⟨inner, hinner, hinside, hends⟩ := ih c (List.mem_of_getElem? hc) hverdict
      refine ⟨_, .inside hc htyped (not_typed_of_error hverdict) hlate hinner, ?_, fun hp => ?_⟩
      · rw [hlog]
        exact List.rel_append hreports (Stop.reports_map_below j hinside)
      cases p with
      | block b =>
        obtain ⟨s, -, rfl⟩ := child_block_iff.mp hc
        exact (hends nofun).inside j (headsAccepted_walkFirst nofun htyped)
      | stmt s =>
        rcases child_stmt_iff.mp hc with ⟨a, ha, rfl⟩ | ⟨i, b, rfl, -, rfl⟩
        · exact endsRefused_expr h ha (verdict_node_eq_error_iff.mp hverdict) hinner
        · have hhead := headVerdict_of_typedFirst htyped (Nat.le_add_right _ i) hlate
          refine (hends nofun).inside _ (headsAccepted_walkFirst ?_ htyped)
          rintro stop hstop r hr
          obtain rfl := List.mem_singleton.mp hstop
          cases hr
          exact hhead
      | node e => exact absurd rfl (hp e)

end Part

/--
**Checking walks through a block, to its end or to where the walk halts.**

What is reported belongs to the stops so far, and is recorded there. The other slots are as they
were.
-/
theorem Context.exists_walk_checkBlock (Γ : Context) (block : Block) :
    ∃ seen rest, (Part.block block).walk Γ = seen ++ rest ∧
      List.Forall₂ Stop.Reports seen (Γ.checkBlock block).log ∧
      ((Γ.checkBlock block).result = .ok () → rest = []) ∧
      (∀ err, (Γ.checkBlock block).result = .error err →
        (Part.block block).Halts err Γ seen ∧ Stop.EndsRefused err seen) ∧
      Stop.slots ((Part.block (Γ.checkBlock block).node).walk Γ) =
        (Γ.checkBlock block).log.map Event.ty? ++ Stop.slots rest := by
  obtain ⟨seen, rest, hstops, hreports, hok, hslots⟩ := @checkBlock_walks block Γ [] 0
  refine ⟨seen, rest, hstops, hreports, fun h => hok ⟨(), h⟩, fun err h => ?_, hslots⟩
  obtain ⟨stops, hhalts, hreports', hends⟩ := Part.exists_halts (p := .block block) h
  obtain ⟨behind, hbehind⟩ := hhalts.walk_eq
  -- two beginnings of the walk with one stop for each event are the same
  have hlength : stops.length = seen.length := by
    rw [hreports'.length_eq, hreports.length_eq]
    rfl
  obtain ⟨rfl, -⟩ := List.append_inj (hbehind.symm.trans hstops) hlength
  exact ⟨hhalts, hends nofun⟩

end BlockLang
