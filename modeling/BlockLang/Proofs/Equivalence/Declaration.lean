import BlockLang.Proofs.Equivalence.Exchange

/-!
# Definitions without a value

A definition without a value declares its variable and does nothing else. Two other ways of
introducing variables come down to it:

* `checkBlock_define_split` — a definition with a value is one without, followed by an assignment.
  The value is visited in another context then, with the variable declared, and this is the same as
  long as the variable does not occur in it. If it does, the definition is refused anyway;
* `checkFunction_params_as_definitions` — the parameters of a function are definitions in front of
  its body. Only the error differs, if one of them is taken: it is about a parameter, and not about
  a variable that stands twice.
-/

namespace BlockLang

theorem Except.exists_error_of_ne_ok {ε : Type} {r : Except ε Unit} (h : r ≠ .ok ()) :
    ∃ e, r = .error e := by
  cases r with
  | error e => exact ⟨e, rfl⟩
  | ok _ => exact absurd rfl h

namespace Context

variable {Γ : Context} {x : Symbol} {xs : List Symbol} {e : Expr} {rest : Block}

/-! ## Definitions with a value -/

theorem checkBlock_define_eq_ok_iff :
    (Γ.checkBlock (.define x (some e) :: rest)).result = .ok () ↔
      (¬ Γ.Declares x ∧ (Γ.infer e).result = .ok x.ty) ∧
        ((Γ.add x).checkBlock rest).result = .ok () := by
  rw [checkBlock_cons_eq_ok_iff, result_checkStmt_of_blocks_eq_nil rfl, headVerdict,
    checkDefine_eq_ok_iff]
  simp only [Option.some.injEq, forall_eq']
  rfl

/-- The variable of the assignment is the one that was declared in front of it. -/
theorem checkBlock_declare_assign_eq_ok_iff :
    (Γ.checkBlock (.define x none :: .assign x e :: rest)).result = .ok () ↔
      (¬ Γ.Declares x ∧ ((Γ.add x).infer e).result = .ok x.ty) ∧
        ((Γ.add x).checkBlock rest).result = .ok () := by
  have hx : (Γ.add x).Declares x := declares_add.mpr (Or.inl rfl)
  have hdefine : (Γ.checkStmt (.define x none)).result = .ok () ↔ ¬ Γ.Declares x := by
    rw [result_checkStmt_of_blocks_eq_nil rfl, headVerdict, checkDefine_eq_ok_iff]
    simp
  have hassign : ((Γ.add x).checkStmt (.assign x e)).result = .ok () ↔
      ((Γ.add x).infer e).result = .ok x.ty := by
    rw [result_checkStmt_of_blocks_eq_nil rfl, headVerdict, checkAssign_eq_ok_iff]
    exact and_iff_right hx
  rw [checkBlock_cons_eq_ok_iff, hdefine, checkBlock_cons_eq_ok_iff, and_assoc]
  exact and_congr_right fun _ => and_congr_left fun _ => hassign

/-- A variable that does not occur in an expression makes no difference to its type. -/
theorem infer_add_of_not_involves (h : ¬ e.Involves x) : (Γ.add x).infer e = Γ.infer e := by
  refine (infer_congr ⟨?_, fun _ _ _ _ => by rw [signatures_add]⟩).symm
  intro n hn y hy
  have hne : y.id ≠ x.id := fun hid => h (Expr.involves_iff.mpr ⟨n, hn, y, hy, hid⟩)
  rw [declares_add]
  exact (or_iff_right hne).symm

/-- A value in which the variable occurs is visited too early: the variable is not declared yet, or
it was declared before. -/
theorem checkStmt_define_ne_ok_of_involves (h : e.Involves x) :
    (Γ.checkStmt (.define x (some e))).result ≠ .ok () := by
  intro hok
  rw [result_checkStmt_of_blocks_eq_nil rfl] at hok
  obtain ⟨hx, he⟩ := checkDefine_eq_ok_iff.mp hok
  obtain ⟨n, hn, y, hy, hid⟩ := Expr.involves_iff.mp h
  obtain ⟨t, ht⟩ := exists_infer_of_mem_nodes (he e rfl) hn
  have hdeclared : Γ.Declares y := declares_of_reads ht hy
  rw [Declares, hid] at hdeclared
  exact hx hdeclared

/-- The error of the definition is that of a block which starts with it. -/
theorem exists_error_of_involves (h : e.Involves x) :
    ∃ err, (Γ.checkStmt (.define x (some e))).result = .error err ∧
      (Γ.checkBlock (.define x (some e) :: rest)).result = .error err := by
  obtain ⟨err, herr⟩ := Except.exists_error_of_ne_ok (checkStmt_define_ne_ok_of_involves h)
  exact ⟨err, herr, checkBlock_cons_eq_error_iff.mpr (Or.inl herr)⟩

/--
**A definition with a value is a definition without one, followed by an assignment.**

As long as the variable does not occur in the value, a block that starts with the one is accepted
exactly when the block that starts with the other is. The contexts behind them are the same then,
and so are the types recorded in the value and in what follows. If the variable does occur in the
value, the definition is refused in every context, and with it every block that starts with it.
-/
theorem checkBlock_define_split (Γ : Context) (x : Symbol) (e : Expr) (rest : Block) :
    (¬ e.Involves x →
      ((Γ.checkBlock (.define x (some e) :: rest)).result = .ok () ↔
        (Γ.checkBlock (.define x none :: .assign x e :: rest)).result = .ok ()) ∧
      ((Γ.checkBlock (.define x (some e) :: rest)).result = .ok () →
        (Γ.checkBlock (.define x (some e) :: rest)).context =
          (Γ.checkBlock (.define x none :: .assign x e :: rest)).context ∧
        ∃ e' rest', (e'.bare = e.bare ∧ Block.bare rest' = Block.bare rest) ∧
          (Γ.checkBlock (.define x (some e) :: rest)).node = .define x (some e') :: rest' ∧
          (Γ.checkBlock (.define x none :: .assign x e :: rest)).node =
            .define x none :: .assign x e' :: rest')) ∧
    (e.Involves x → ∃ err, (Γ.checkStmt (.define x (some e))).result = .error err ∧
      (Γ.checkBlock (.define x (some e) :: rest)).result = .error err) := by
  refine ⟨fun hfree => ?_, exists_error_of_involves⟩
  have hinfer : (Γ.add x).infer e = Γ.infer e := infer_add_of_not_involves hfree
  have hverdict : (Γ.checkBlock (.define x (some e) :: rest)).result = .ok () ↔
      (Γ.checkBlock (.define x none :: .assign x e :: rest)).result = .ok () := by
    rw [checkBlock_define_eq_ok_iff, checkBlock_declare_assign_eq_ok_iff, hinfer]
  refine ⟨hverdict, fun hok => ⟨?_, ?_⟩⟩
  · rw [context_checkBlock_of_ok hok, context_checkBlock_of_ok (hverdict.mp hok)]
    rfl
  · have hwhole := (checkBlock_cons_eq_ok_iff.mp hok).1
    obtain ⟨hdeclare, hrest⟩ := checkBlock_cons_eq_ok_iff.mp (hverdict.mp hok)
    have hassign := (checkBlock_cons_eq_ok_iff.mp hrest).1
    have hnode : (Γ.checkBlock (.define x (some e) :: rest)).node =
        .define x (some (Γ.infer e).node) :: ((Γ.add x).checkBlock rest).node := by
      rw [node_checkBlock_cons_of_ok hwhole, node_checkStmt_of_ok hwhole]
      rfl
    have hnode' : (Γ.checkBlock (.define x none :: .assign x e :: rest)).node =
        .define x none :: .assign x (Γ.infer e).node :: ((Γ.add x).checkBlock rest).node := by
      rw [node_checkBlock_cons_of_ok hdeclare, node_checkStmt_of_ok hdeclare,
        node_checkBlock_cons_of_ok hassign, node_checkStmt_of_ok hassign, ← hinfer]
      rfl
    exact ⟨_, _, ⟨bare_node_infer e, bare_node_checkBlock rest⟩, hnode, hnode'⟩

/-- The value `!y` for a variable `x`, of which only `y` is declared. -/
theorem negation_define_split :
    let x : Symbol := ⟨⟨0⟩, "x", .bool⟩
    let y : Symbol := ⟨⟨1⟩, "y", .bool⟩
    let Γ : Context := { scope := ⟨[⟨1⟩], by simp⟩ }
    let value : Expr := .not none (.var none y)
    (¬ value.Involves x ∧ (Γ.checkBlock [.define x (some value)]).result = .ok () ∧
      (Γ.checkBlock [.define x none, .assign x value]).result = .ok ()) ∧
    (value.Involves y ∧ (∃ err, (Γ.checkStmt (.define y (some value))).result = .error err ∧
        (Γ.checkBlock [.define y (some value)]).result = .error err) ∧
      ∃ err, (checkStmt {} (.define y (some value))).result = .error err ∧
        (checkBlock {} [.define y (some value)]).result = .error err) := by
  intro x y Γ value
  have hfree : ¬ value.Involves x := by decide
  have hself : value.Involves y := by decide
  have hok : (Γ.checkBlock [.define x (some value)]).result = .ok () := rfl
  have hsplit := ((checkBlock_define_split Γ x value []).1 hfree).1.mp hok
  exact ⟨⟨hfree, hok, hsplit⟩, hself, (checkBlock_define_split Γ y value []).2 hself,
    (checkBlock_define_split {} y value []).2 hself⟩

/-! ## Parameters -/

/-- Definitions of some variables, all of them without a value. -/
def declarations (xs : List Symbol) : Block := xs.map fun x => .define x none

/-- The parameter is the first one that is equal to an earlier one or was declared before. -/
def FirstTaken (Γ : Context) (params : List Symbol) (p : Symbol) : Prop :=
  ∃ earlier later, params = earlier ++ p :: later ∧ Γ.Fresh earlier ∧
    ((∃ y ∈ earlier, y.id = p.id) ∨ Γ.Declares p)

/-- As soon as a parameter is taken, there is a first one that is. -/
theorem exists_firstTaken (h : ¬ Γ.Fresh xs) : ∃ p, Γ.FirstTaken xs p := by
  induction xs generalizing Γ with
  | nil => exact absurd fresh_nil h
  | cons x xs ih =>
    by_cases hx : Γ.Declares x
    · exact ⟨x, [], xs, rfl, fresh_nil, Or.inr hx⟩
    · -- the others are taken with the first one declared
      obtain ⟨p, earlier, later, hxs, hearlier, hp⟩ := ih fun hxs => h (fresh_cons.mpr ⟨hx, hxs⟩)
      refine ⟨p, x :: earlier, later, by rw [hxs, List.cons_append],
        fresh_cons.mpr ⟨hx, hearlier⟩, ?_⟩
      rcases hp with ⟨y, hy, hid⟩ | hp
      · exact Or.inl ⟨y, List.mem_cons_of_mem x hy, hid⟩
      · rcases declares_add.mp hp with hid | hp
        · exact Or.inl ⟨x, List.mem_cons_self, hid.symm⟩
        · exact Or.inr hp

/-- The earlier parameters are declared by the time the parameter is asked for. -/
theorem declares_addAll_of_taken {earlier : List Symbol}
    (h : (∃ y ∈ earlier, y.id = x.id) ∨ Γ.Declares x) : (Γ.addAll earlier).Declares x := by
  rw [declares_addAll, List.mem_map]
  exact h

theorem declareParams_append_of_fresh {ys : List Symbol} (h : Γ.Fresh xs) :
    Γ.declareParams (xs ++ ys) = (Γ.addAll xs).declareParams ys := by
  induction xs generalizing Γ with
  | nil => rfl
  | cons x xs ih =>
    obtain ⟨hx, hxs⟩ := fresh_cons.mp h
    rw [List.cons_append, declareParams_cons_of_not_declares hx, ih hxs, addAll_cons]

/-! ### Definitions in front of a block -/

theorem defined_declarations : Block.defined (declarations xs) = xs := by
  rw [Block.defined, declarations, List.filterMap_map]
  exact List.filterMap_some

theorem toVisit_checkStmt_declare_of_not_declares (h : ¬ Γ.Declares x) :
    (Γ.checkStmt (.define x none)).toVisit =
      ⟨.ok (), .define x none, [.enterStmt .define]⟩ := by
  rw [checkStmt, checkDefine, declare_of_not_declares h]
  rfl

theorem toVisit_checkStmt_declare_of_declares (h : Γ.Declares x) :
    (Γ.checkStmt (.define x none)).toVisit =
      ⟨.error (.redeclared x.name), .define x none, [.enterStmt .define]⟩ := by
  rw [checkStmt, checkDefine, declare_of_declares h]
  rfl

/-- **Definitions of fresh variables are accepted**, and nothing is recorded on the way. -/
theorem toVisit_checkBlock_declarations (h : Γ.Fresh xs) :
    (Γ.checkBlock (declarations xs)).toVisit =
      ⟨.ok (), declarations xs, List.replicate xs.length (.enterStmt .define)⟩ := by
  induction xs generalizing Γ with
  | nil => rw [declarations, List.map_nil, checkBlock]; rfl
  | cons x xs ih =>
    obtain ⟨hx, hxs⟩ := fresh_cons.mp h
    have hrest : ((Γ.addAll (Stmt.define x none).defines?.toList).checkBlock
        (declarations xs)).toVisit = _ := ih hxs
    show (Γ.checkBlock (.define x none :: declarations xs)).toVisit = _
    rw [toVisit_checkBlock_cons, hrest, toVisit_checkStmt_declare_of_not_declares hx]
    rfl

/-- A definition of a variable that is taken ends the visit, whatever follows it. -/
theorem toVisit_checkBlock_of_taken {p : Symbol} (h : Γ.Fresh xs) (hp : (Γ.addAll xs).Declares p)
    (post : Block) :
    (Γ.checkBlock (declarations xs ++ .define p none :: post)).toVisit =
      ⟨.error (.redeclared p.name), declarations xs ++ .define p none :: post,
        List.replicate (xs.length + 1) (.enterStmt .define)⟩ := by
  have hstop : ((Γ.addAll xs).checkBlock (.define p none :: post)).toVisit =
      ⟨.error (.redeclared p.name), .define p none :: post, [.enterStmt .define]⟩ := by
    rw [toVisit_checkBlock_cons, toVisit_checkStmt_declare_of_declares hp]
    rfl
  rw [toVisit_checkBlock_append, toVisit_checkBlock_declarations h, defined_declarations, hstop,
    List.replicate_succ']
  rfl

/-! ### Functions -/

theorem result_checkFunction_of_fresh {params : List Symbol} {body : Block}
    (h : Γ.Fresh params) :
    (Γ.checkFunction params body).result = ((Γ.addAll params).checkBlock body).result := by
  rw [checkFunction, declareParams_eq_ok_iff.mpr ⟨h, rfl⟩, Visit.result_entering, Visit.guarded_ok,
    Visit.result_andThen]
  cases ((Γ.addAll params).checkBlock body).result <;> rfl

/--
**The parameters of a function are definitions without values in front of its body.**

If the parameters are pairwise distinct and new, the function has the verdict of the block that
starts with their definitions, the same error included, and the same types are recorded in its body.
Otherwise there is a first parameter that is equal to an earlier one or was declared before; the
function is refused because of it as a parameter, and the block because of it as a variable. Neither
visits any part of the body then. So a function that is refused because a variable stands twice is
refused because of its body, and a body that introduces a parameter again, at any depth, is refused.
-/
theorem checkFunction_params_as_definitions (Γ : Context) (params : List Symbol) (body : Block) :
    (Γ.Fresh params →
      (Γ.checkFunction params body).result =
        (Γ.checkBlock (declarations params ++ body)).result ∧
      (Γ.checkBlock (declarations params ++ body)).node =
        declarations params ++ (Γ.checkFunction params body).node) ∧
    (¬ Γ.Fresh params → ∃ p, Γ.FirstTaken params p) ∧
    (∀ p, Γ.FirstTaken params p →
      (Γ.checkFunction params body).result = .error (.duplicateParameter p.name) ∧
      (Γ.checkBlock (declarations params ++ body)).result = .error (.redeclared p.name) ∧
      ((Γ.checkFunction params body).node = body ∧
        (Γ.checkFunction params body).log = [.enterFunction params.length]) ∧
      (Γ.checkBlock (declarations params ++ body)).node = declarations params ++ body ∧
        ∃ count ≤ params.length, (Γ.checkBlock (declarations params ++ body)).log =
          List.replicate count (.enterStmt .define)) ∧
    (∀ name, (Γ.checkFunction params body).result = .error (.redeclared name) →
      Γ.Fresh params ∧ ((Γ.addAll params).checkBlock body).result = .error (.redeclared name)) ∧
    ∀ s ∈ Block.stmts body, ∀ x, s.defines? = some x → (∃ p ∈ params, p.id = x.id) →
      ∃ err, (Γ.checkFunction params body).result = .error err := by
  refine ⟨fun h => ?_, exists_firstTaken, ?_, ?_, ?_⟩
  · have hfront := toVisit_checkBlock_declarations h
    have hok : (Γ.checkBlock (declarations params)).result = .ok () := by rw [hfront]
    rw [result_checkFunction_of_fresh h, node_checkFunction_of_fresh h,
      node_checkBlock_append_of_ok hok, hfront, defined_declarations]
    refine ⟨?_, rfl⟩
    rw [toVisit_checkBlock_append, Visit.result_andThen, hok, defined_declarations]
    rfl
  · rintro p ⟨earlier, later, rfl, hfresh, hp⟩
    have htaken := declares_addAll_of_taken hp
    have hparams : Γ.declareParams (earlier ++ p :: later) =
        .error (.duplicateParameter p.name) := by
      rw [declareParams_append_of_fresh hfresh, declareParams_cons_of_declares htaken]
    have hsplit : declarations (earlier ++ p :: later) ++ body =
        declarations earlier ++ .define p none :: (declarations later ++ body) := by
      simp [declarations]
    rw [checkFunction_of_declareParams_error hparams, hsplit,
      toVisit_checkBlock_of_taken hfresh htaken]
    refine ⟨rfl, rfl, ⟨rfl, rfl⟩, rfl, earlier.length + 1, ?_, rfl⟩
    rw [List.length_append, List.length_cons]
    omega
  · intro name h
    rcases checkFunction_eq_error_iff.mp h with hparams | hbody
    · obtain ⟨_, x, _, _, he, _⟩ := exists_of_declareParams_error hparams
      cases he
    · exact hbody
  · rintro s hs x hx ⟨p, hp, hid⟩
    refine Except.exists_error_of_ne_ok fun hok => ?_
    obtain ⟨-, hbody⟩ := checkFunction_eq_ok_iff.mp hok
    obtain ⟨xs, hhead⟩ := exists_headVerdict_of_mem_stmts hbody hs
    refine not_declares_of_defines hhead hx ?_
    rw [declares_addAll, declares_addAll]
    exact Or.inr (Or.inl (List.mem_map.mpr ⟨p, hp, hid⟩))

/-- A body that introduces `q` inside a loop. -/
def loopBody (q : Symbol) : Block := [.loop (.var none q) [.define q none]]

/-- With the parameter `q` the loop is refused, and with `p` and `q` as definitions in front of it
for the same reason. A third parameter of the identity of `p` is refused under its own name. -/
theorem loopBody_params_as_definitions :
    let p : Symbol := ⟨⟨0⟩, "p", .bool⟩
    let q : Symbol := ⟨⟨1⟩, "q", .bool⟩
    let again : Symbol := ⟨⟨0⟩, "again", .bool⟩
    (Fresh {} [p, q] ∧
      (checkFunction {} [p, q] (loopBody q)).result =
        (checkBlock {} (declarations [p, q] ++ loopBody q)).result ∧
      ∃ err, (checkFunction {} [p, q] (loopBody q)).result = .error err) ∧
    (FirstTaken {} [p, q, again] again ∧
      (checkFunction {} [p, q, again] (loopBody q)).result =
        .error (.duplicateParameter "again") ∧
      (checkBlock {} (declarations [p, q, again] ++ loopBody q)).result =
        .error (.redeclared "again")) := by
  intro p q again
  have hfresh : Fresh {} [p, q] := ⟨by decide, by decide⟩
  have htaken : FirstTaken {} [p, q, again] again :=
    ⟨[p, q], [], rfl, hfresh, Or.inl ⟨p, List.mem_cons_self, rfl⟩⟩
  obtain ⟨hsame, -, -, -, hredefined⟩ := checkFunction_params_as_definitions {} [p, q] (loopBody q)
  obtain ⟨-, -, hrefused, -⟩ := checkFunction_params_as_definitions {} [p, q, again] (loopBody q)
  have hinner : Stmt.define q none ∈ Block.stmts (loopBody q) :=
    List.mem_cons_of_mem _ List.mem_cons_self
  refine ⟨⟨hfresh, (hsame hfresh).1, ?_⟩, htaken, ?_, ?_⟩
  · exact hredefined _ hinner q rfl ⟨q, List.mem_cons_of_mem p List.mem_cons_self, rfl⟩
  · exact (hrefused again htaken).1
  · exact (hrefused again htaken).2.1

end Context

end BlockLang
