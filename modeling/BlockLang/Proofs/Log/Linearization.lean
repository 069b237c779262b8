import BlockLang.Proofs.Log.Halting

/-!
# The log follows the walk

The log of a function is a linearization of its body: the span, the walk through the body with one
event per stop, and the number of variables at the end. `Proofs/Log/Visiting.lean` says that what is
reported follows the walk and is recorded on it, and `Proofs/Log/Halting.lean` says where the walk
ends if the body is refused.

`Context.checkFunction_log_is_walk` puts the results together. The slots that it speaks of are those
of the tree that is left, which is the body apart from its slots, so the stops are found in it by
their addresses (`Part.slotAt`).
-/

namespace BlockLang

/-! ## Events and stops -/

/-- The kind of the statement that is entered when the event is reported. -/
def Event.kind? : Event → Option StmtKind
  | enterStmt kind => some kind
  | _ => none

/-- What is recorded at an address. -/
def Part.slotAt (p : Part) (a : List Nat) : Option Ty := (p.at? a).bind Part.slot?

namespace Stop

/-- The kinds that are reported are those of the statements among the stops. -/
theorem filterMap_kind?_of_reports {stops : List Stop} {events : List Event}
    (h : List.Forall₂ Reports stops events) :
    events.filterMap Event.kind? = (stmts stops).map Stmt.kind := by
  induction h with
  | nil => rfl
  | cons hevent _ ih =>
    cases hevent with
    | entered => exact congrArg (_ :: ·) ih
    | written _ => exact ih

/-- At no stop is the end of a body reported. -/
theorem bodyChecked_not_mem_of_reports {stops : List Stop} {events : List Event}
    (h : List.Forall₂ Reports stops events) (count : Nat) : .bodyChecked count ∉ events := by
  induction h with
  | nil => exact List.not_mem_nil
  | cons hevent _ ih =>
    intro hmem
    rcases List.mem_cons.mp hmem with he | hmem
    · rw [← he] at hevent
      cases hevent
    · exact ih hmem

/-- Where a type is reported, inference found types for all nodes below. -/
theorem exists_infer_of_reports {stops : List Stop} {events : List Event}
    (h : List.Forall₂ Reports stops events) {stop : Stop} (hstop : stop ∈ stops) {e n : Expr}
    (hpart : stop.part = .node e) (hn : n ∈ e.nodes) :
    ∃ t, (stop.context.infer n).result = .ok t := by
  induction h with
  | nil => exact absurd hstop List.not_mem_nil
  | cons hevent _ ih =>
    rcases List.mem_cons.mp hstop with rfl | hstop
    · cases hevent with
      | entered => cases hpart
      | written ht =>
        cases hpart
        exact Context.exists_infer_of_mem_nodes ht hn
    · exact ih hstop

end Stop

namespace Part

theorem map_slotAt_walk (p : Part) (Γ : Context) :
    (p.walk Γ).map (fun stop => p.slotAt stop.address) = Stop.slots (p.walk Γ) := by
  refine List.map_congr_left fun stop hstop => ?_
  rw [slotAt, at?_of_mem_walk hstop, Option.bind_some]

/-- The walk through a tree finds all slots of a tree that differs from it in its slots only. -/
theorem map_slotAt_walk_of_bare_eq {p q : Part} (h : p.bare = q.bare) (Γ : Context) :
    (q.walk Γ).map (fun stop => p.slotAt stop.address) = Stop.slots (p.walk Γ) := by
  have haddress : (q.walk Γ).map Stop.address = (p.walk Γ).map Stop.address := by
    rw [← map_address_walk_bare q Γ Γ, ← map_address_walk_bare p Γ Γ, h]
  calc (q.walk Γ).map (fun stop => p.slotAt stop.address)
      = ((q.walk Γ).map Stop.address).map p.slotAt := by rw [List.map_map]; rfl
    _ = ((p.walk Γ).map Stop.address).map p.slotAt := by rw [haddress]
    _ = (p.walk Γ).map (fun stop => p.slotAt stop.address) := by rw [List.map_map]; rfl
    _ = Stop.slots (p.walk Γ) := map_slotAt_walk p Γ

/-- What was written at the first stops is recorded there, and at the others what was recorded. -/
theorem slotAt_of_slots {p q : Part} {Γ : Context} {seen rest : List Stop}
    {written : List (Option Ty)} (h : p.bare = q.bare) (hstops : q.walk Γ = seen ++ rest)
    (hlength : seen.length = written.length)
    (hslots : Stop.slots (p.walk Γ) = written ++ Stop.slots rest) :
    seen.map (fun stop => p.slotAt stop.address) = written ∧
      rest.map (fun stop => p.slotAt stop.address) = Stop.slots rest := by
  have hwalk := (map_slotAt_walk_of_bare_eq h Γ).trans hslots
  rw [hstops, List.map_append] at hwalk
  exact List.append_inj hwalk (by rw [List.length_map, hlength])

end Part

/-- What a block introduces directly is introduced by the definitions that stand directly in it. -/
theorem Block.length_defined (block : Block) :
    (Block.defined block).length = block.countP (·.kind == .define) := by
  induction block with
  | nil => rfl
  | cons s ss ih =>
    rw [Block.defined_cons, List.length_append, ih, List.countP_cons]
    cases s <;> simp [Stmt.defines?, Stmt.kind, Nat.add_comm]

namespace Context

variable {Γ : Context}

/-! ## Functions -/

section Function

variable {params : List Symbol} {body : Block}

/-- Behind an accepted body there are the variables known before, the parameters and what the body
introduces directly. -/
theorem checkFunction_of_ok (hfresh : Γ.Fresh params)
    (h : ((Γ.addAll params).checkBlock body).result = .ok ()) :
    Γ.checkFunction params body =
      ⟨.ok (), ((Γ.addAll params).checkBlock body).node,
        .enterFunction params.length :: (((Γ.addAll params).checkBlock body).log ++
          [.bodyChecked (Γ.scope.size + params.length + body.countP (·.kind == .define))])⟩ := by
  have hsize : ((Γ.addAll params).checkBlock body).context.scope.size =
      Γ.scope.size + params.length + body.countP (·.kind == .define) := by
    rw [context_checkBlock_of_ok h, size_addAll_of_fresh (fresh_defined_of_ok h),
      size_addAll_of_fresh hfresh, Block.length_defined]
  rw [checkFunction, declareParams_eq_ok_iff.mpr ⟨hfresh, rfl⟩, Visit.guarded_ok,
    Visit.andThen_ok h, hsize]
  rfl

theorem checkFunction_of_error {err : TypeError} (hfresh : Γ.Fresh params)
    (h : ((Γ.addAll params).checkBlock body).result = .error err) :
    Γ.checkFunction params body =
      ⟨.error err, ((Γ.addAll params).checkBlock body).node,
        .enterFunction params.length :: ((Γ.addAll params).checkBlock body).log⟩ := by
  rw [checkFunction, declareParams_eq_ok_iff.mpr ⟨hfresh, rfl⟩, Visit.guarded_ok,
    Visit.andThen_error h]
  rfl

/-- **Checking a function walks through its body**, after the span and before the count. -/
theorem exists_walk_checkFunction (params : List Symbol) (body : Block) :
    ∃ seen rest events, (Part.block body).walk (Γ.addAll params) = seen ++ rest ∧
      List.Forall₂ Stop.Reports seen events ∧
      Stop.slots ((Part.block (Γ.checkFunction params body).node).walk (Γ.addAll params)) =
        events.map Event.ty? ++ Stop.slots rest ∧
      ((Γ.checkFunction params body).result = .ok () → rest = [] ∧
        (Γ.checkFunction params body).log = .enterFunction params.length :: (events ++
          [.bodyChecked (Γ.scope.size + params.length + body.countP (·.kind == .define))])) ∧
      ∀ err, (Γ.checkFunction params body).result = .error err →
        (Γ.checkFunction params body).log = .enterFunction params.length :: events ∧
        (¬ Γ.Fresh params → seen = []) ∧
        (Γ.Fresh params → (Part.block body).Halts err (Γ.addAll params) seen ∧
          Stop.EndsRefused err seen) := by
  cases hparams : Γ.declareParams params with
  | error err =>
    have hfresh : ¬ Γ.Fresh params := by
      intro hfresh
      rw [declareParams_eq_ok_iff.mpr ⟨hfresh, rfl⟩] at hparams
      cases hparams
    rw [checkFunction_of_declareParams_error hparams]
    exact ⟨[], _, [], rfl, .nil, rfl, nofun,
      fun _ _ => ⟨rfl, fun _ => rfl, fun h => absurd h hfresh⟩⟩
  | ok Δ =>
    have hfresh : Γ.Fresh params := (declareParams_eq_ok_iff.mp hparams).1
    obtain ⟨seen, rest, hstops, hreports, hok, herr, hslots⟩ :=
      exists_walk_checkBlock (Γ.addAll params) body
    cases hbody : ((Γ.addAll params).checkBlock body).result with
    | error err =>
      rw [checkFunction_of_error hfresh hbody]
      refine ⟨seen, rest, _, hstops, hreports, hslots, nofun, ?_⟩
      rintro _ ⟨⟩
      exact ⟨rfl, fun h => absurd hfresh h, fun _ => herr err hbody⟩
    | ok _ =>
      rw [checkFunction_of_ok hfresh hbody]
      exact ⟨seen, rest, _, hstops, hreports, hslots, fun _ => ⟨hok hbody, rfl⟩, nofun⟩

/--
**The log of a function is the walk through its body, one event per stop.**

The walk has one stop for every statement and every node of the body: a statement before what is
inside it, a node behind what is below it, and all else from left to right. The events are those of
the first stops, in their order. At a statement it is the statement's kind; at a node it is the type
that inference finds there, and this is what the node holds afterwards. The other nodes hold what
they held. A node is reported only if inference found types for it and all nodes below it.

If the function is accepted, there are no other stops, and the log ends with the number of
variables: those known before, the parameters and the definitions that stand directly in the body.

If it is refused, no such number is reported, and the kinds of statements that are reported are the
first ones in the body. There are no stops if a parameter is refused. Otherwise the stops are those
up to the one place where the walk halts with the error: the last statement among them is the first
one whose head is refused, with the error, and the nodes behind it are those that come before the
fault.
-/
theorem checkFunction_log_is_walk (Γ : Context) (params : List Symbol) (body : Block) :
    let v := Γ.checkFunction params body
    ∃ seen rest events, (Part.block body).IsWalk (Γ.addAll params) (seen ++ rest) ∧
      List.Forall₂ Stop.Reports seen events ∧
      (∀ stop ∈ seen, ∀ e, stop.part = .node e → ∀ n ∈ e.nodes,
        ∃ t, (stop.context.infer n).result = .ok t) ∧
      (Block.bare v.node = Block.bare body ∧
        seen.map (fun stop => (Part.block v.node).slotAt stop.address) = events.map Event.ty? ∧
        rest.map (fun stop => (Part.block v.node).slotAt stop.address) = Stop.slots rest) ∧
      (v.result = .ok () → rest = [] ∧
        v.log = .enterFunction params.length :: (events ++
          [.bodyChecked (Γ.scope.size + params.length + body.countP (·.kind == .define))]) ∧
        v.log.filterMap Event.kind? = (Block.stmts body).map Stmt.kind) ∧
      ∀ err, v.result = .error err →
        v.log = .enterFunction params.length :: events ∧
        (∀ count, .bodyChecked count ∉ v.log) ∧
        v.log.filterMap Event.kind? <+: (Block.stmts body).map Stmt.kind ∧
        (¬ Γ.Fresh params → seen = []) ∧
        (Γ.Fresh params →
          (∀ stops, (Part.block body).Halts err (Γ.addAll params) stops ↔ stops = seen) ∧
          Stop.EndsRefused err seen) := by
  intro v
  obtain ⟨seen, rest, events, hstops, hreports, hslots, hok, herr⟩ :=
    exists_walk_checkFunction (Γ := Γ) params body
  have hbare : Block.bare v.node = Block.bare body := bare_node_checkFunction params body
  have hlength : seen.length = (events.map Event.ty?).length := by
    rw [List.length_map, hreports.length_eq]
  have hrecorded := Part.slotAt_of_slots (p := .block v.node) (q := .block body)
    (congrArg Part.block hbare) hstops hlength hslots
  have hstmts : Stop.stmts seen ++ Stop.stmts rest = Block.stmts body := by
    rw [← Stop.stmts_append, ← hstops]
    exact Block.stmts_walkFrom body
  have hkinds := Stop.filterMap_kind?_of_reports hreports
  refine ⟨seen, rest, events, hstops ▸ Part.isWalk_walk _ _, hreports,
    fun stop hstop e he n hn => Stop.exists_infer_of_reports hreports hstop he hn,
    ⟨hbare, hrecorded⟩, fun h => ?_, fun err h => ?_⟩
  · obtain ⟨rfl, hlog⟩ := hok h
    refine ⟨rfl, hlog, ?_⟩
    rw [hlog, ← hstmts, List.filterMap_cons, List.filterMap_append, hkinds]
    simp [Event.kind?, Stop.stmts]
  · obtain ⟨hlog, hparams, hbody⟩ := herr err h
    refine ⟨hlog, fun count hmem => ?_, ?_, hparams, fun hfresh => ?_⟩
    · rw [hlog] at hmem
      rcases List.mem_cons.mp hmem with hc | hmem
      · cases hc
      · exact Stop.bodyChecked_not_mem_of_reports hreports count hmem
    · rw [hlog, ← hstmts, List.map_append, List.filterMap_cons, hkinds]
      exact List.prefix_append _ _
    · obtain ⟨hhalts, hends⟩ := hbody hfresh
      refine ⟨fun stops => ⟨fun hstops => hstops.unique hhalts, ?_⟩, hends⟩
      rintro rfl
      exact hhalts

end Function

/-- A body that defines a truth value and turns it around in a branch. -/
def toggled : Block :=
  let x : Symbol := ⟨⟨0⟩, "x", .bool⟩
  [.define x (some (.const none (.bool true))),
    .branch (.var none x) [.assign x (.not none (.var none x))] [], .ret none]

/-- Where nothing is to be given back, the body is accepted and the log ends with two variables, one
of them known before. Where a value is to be given back it is refused at its end: the last number is
missing, all kinds are there. Where the variable is known before, the body is refused at its first
statement, behind the value of the definition. -/
theorem toggled_log_is_walk :
    let scope : Scope := ⟨[⟨7⟩], by simp⟩
    let accepting : Context := { scope }
    let refusing : Context := { scope, returns := .value .bool }
    let clashing : Context := { scope := ⟨[⟨0⟩], by simp⟩ }
    let kinds : List StmtKind := [.define, .branch, .assign, .ret]
    (∃ events, (accepting.checkFunction [] toggled).log =
        .enterFunction 0 :: (events ++ [.bodyChecked 2]) ∧ events.length = 8) ∧
      (accepting.checkFunction [] toggled).log.filterMap Event.kind? = kinds ∧
      (∀ count, .bodyChecked count ∉ (refusing.checkFunction [] toggled).log) ∧
      (refusing.checkFunction [] toggled).log.filterMap Event.kind? = kinds ∧
      (∃ seen, Stop.EndsRefused (.missingValue .bool) seen ∧
        (Stop.stmts seen).map Stmt.kind = kinds) ∧
      (clashing.checkFunction [] toggled).log.filterMap Event.kind? = [.define] ∧
      ∃ seen, (Part.block toggled).Halts (.redeclared "x") clashing seen ∧ seen.length = 2 := by
  intro scope accepting refusing clashing kinds
  have hten : (accepting.checkFunction [] toggled).log.length = 10 := by decide
  have hall : (refusing.checkFunction [] toggled).log.filterMap Event.kind? = kinds := by decide
  have hthree : (clashing.checkFunction [] toggled).log.length = 3 := by decide
  obtain ⟨_, _, events, -, -, -, -, hok, -⟩ := checkFunction_log_is_walk accepting [] toggled
  obtain ⟨rfl, hlog, hkinds⟩ := hok rfl
  obtain ⟨seen, _, _, -, hreports, -, -, -, herr⟩ := checkFunction_log_is_walk refusing [] toggled
  obtain ⟨hlog', habsent, -, -, hhalts⟩ := herr (.missingValue .bool) rfl
  obtain ⟨seen', _, _, -, hreports', -, -, -, herr'⟩ :=
    checkFunction_log_is_walk clashing [] toggled
  obtain ⟨hlog'', -, -, -, hhalts'⟩ := herr' (.redeclared "x") rfl
  refine ⟨⟨events, hlog, ?_⟩, hkinds, habsent, hall, ⟨seen, (hhalts fresh_nil).2, ?_⟩, by decide,
    seen', ((hhalts' fresh_nil).1 seen').mpr rfl, ?_⟩
  · rw [hlog, List.length_cons, List.length_append, List.length_singleton] at hten
    omega
  · rw [← Stop.filterMap_kind?_of_reports hreports, ← hall, hlog']
    rfl
  · rw [hlog'', List.length_cons] at hthree
    rw [hreports'.length_eq]
    omega

end Context

end BlockLang
