import BlockLang.Proofs.Log.Walk
import BlockLang.Proofs.Slots.Bare
import Mathlib.Data.List.Forall2

/-!
# Visits that walk

What typing reports on its way through a tree is the walk through it (`Proofs/Log/Walk.lean`), event
by event: each statement as it is entered, each node as its type is recorded. After a good verdict
these are all stops. After a bad one they are the first ones, and the slots behind them are as they
were.

`Visit.Walks` says so of one visit, with what was done before it, and is kept when visits are put
together (`Visit.Walks.andThen`). That each visit walks is then a matter of following its
definition: `Context.infer_walks` for expressions, `Context.checkBlock_walks` for statements.

How many stops are the first ones after a bad verdict is another matter, which hangs on where the
fault is: see `Proofs/Log/Halting.lean`.
-/

namespace BlockLang

/-! ## Events and stops -/

/-- The type that is written when the event is reported. -/
def Event.ty? : Event → Option Ty
  | inferred t => some t
  | _ => none

/-- What is recorded in a part: a type, if it is a node. -/
def Part.slot? : Part → Option Ty
  | .node e => e.slot
  | _ => none

namespace Stop

/-- The event is what typing has to report at the stop: the kind of the statement, or the type that
inference finds for the node in the context of the stop. -/
inductive Reports : Stop → Event → Prop
  | entered {a : List Nat} {Γ : Context} {s : Stmt} : Reports ⟨a, Γ, .stmt s⟩ (.enterStmt s.kind)
  | written {a : List Nat} {Γ : Context} {e : Expr} {t : Ty} :
      (Γ.infer e).result = .ok t → Reports ⟨a, Γ, .node e⟩ (.inferred t)

theorem Reports.below {stop : Stop} {event : Event} (h : stop.Reports event) (i : Nat) :
    (stop.below i).Reports event := by
  cases h with
  | entered => exact .entered
  | written ht => exact .written ht

theorem reports_map_below {stops : List Stop} {events : List Event} (i : Nat)
    (h : List.Forall₂ Reports stops events) :
    List.Forall₂ Reports (stops.map (.below i)) events :=
  List.forall₂_map_left_iff.mpr (h.imp fun _ _ hr => hr.below i)

/-- What is recorded at the stops. -/
def slots (stops : List Stop) : List (Option Ty) := stops.map fun stop => stop.part.slot?

@[simp] theorem slots_nil : slots [] = [] := rfl

@[simp] theorem slots_node {a : List Nat} {Γ : Context} {e : Expr} (stops : List Stop) :
    slots (⟨a, Γ, .node e⟩ :: stops) = e.slot :: slots stops := rfl

@[simp] theorem slots_stmt {a : List Nat} {Γ : Context} {s : Stmt} (stops : List Stop) :
    slots (⟨a, Γ, .stmt s⟩ :: stops) = none :: slots stops := rfl

@[simp] theorem slots_append (left right : List Stop) :
    slots (left ++ right) = slots left ++ slots right := List.map_append

@[simp] theorem slots_map_below (i : Nat) (stops : List Stop) :
    slots (stops.map (.below i)) = slots stops := List.map_map

theorem slots_walk {Γ : Context} (e : Expr) :
    slots (e.walk Γ) = slots (Expr.walkFrom Γ 0 e.children) ++ [e.slot] := by
  cases e <;> simp [Expr.walk, Expr.walkFrom, Expr.children, Expr.slot]

end Stop

/-! ## Visits that walk -/

namespace Visit

variable {ρ σ α β : Type} {v : Visit ρ α} {done : List (Option Ty)} {stops more : List Stop}
  {slots : α → List (Option Ty)} {slots' : β → List (Option Ty)}

/-- The visit walks along the stops: what it reports belongs to the first of them, and to all of
them if the verdict is good. In the part that it leaves, `done` is recorded in front of these stops,
then what was reported, and at the other stops what was recorded there before. Where a visit with a
bad verdict stops is for `Part.Halts` to say. -/
def Walks (v : Visit ρ α) (done : List (Option Ty)) (stops : List Stop)
    (slots : α → List (Option Ty)) : Prop :=
  ∃ seen rest, stops = seen ++ rest ∧ List.Forall₂ Stop.Reports seen v.log ∧
    ((∃ a, v.result = .ok a) → rest = []) ∧
    slots v.node = done ++ (v.log.map Event.ty? ++ Stop.slots rest)

theorem Walks.reports_of_ok {a : ρ} (h : v.Walks done stops slots) (hok : v.result = .ok a) :
    List.Forall₂ Stop.Reports stops v.log := by
  obtain ⟨seen, rest, rfl, hreports, hrest, -⟩ := h
  rw [hrest ⟨a, hok⟩, List.append_nil]
  exact hreports

/-- A visit that reports nothing has stopped before the first stop. -/
theorem walks_idle {result : Except TypeError ρ} {node : α}
    (hok : (∃ a, result = .ok a) → stops = []) (hnode : slots node = done ++ Stop.slots stops) :
    (⟨result, node, []⟩ : Visit ρ α).Walks done stops slots :=
  ⟨[], stops, rfl, .nil, hok, hnode⟩

theorem walks_error {err : TypeError} {node : α} (hnode : slots node = done ++ Stop.slots stops) :
    (⟨.error err, node, []⟩ : Visit ρ α).Walks done stops slots :=
  walks_idle (fun ⟨_, h⟩ => by cases h) hnode

theorem Walks.below (h : v.Walks done stops slots) (i : Nat) :
    v.Walks done (stops.map (.below i)) slots := by
  obtain ⟨seen, rest, rfl, hreports, hok, hnode⟩ := h
  refine ⟨seen.map (.below i), rest.map (.below i), List.map_append, ?_, ?_, ?_⟩
  · exact Stop.reports_map_below i hreports
  · intro ha
    rw [hok ha]
    rfl
  · rw [hnode, Stop.slots_map_below]

theorem Walks.map (h : v.Walks done stops slots) (g : ρ → σ) (f : α → β)
    (hf : slots' (f v.node) = slots v.node) :
    (⟨v.result.map g, f v.node, v.log⟩ : Visit σ β).Walks done stops slots' := by
  obtain ⟨seen, rest, hstops, hreports, hok, hnode⟩ := h
  refine ⟨seen, rest, hstops, hreports, ?_, hf.trans hnode⟩
  rintro ⟨b, hb⟩
  obtain ⟨a, ha, -⟩ := Except.map_eq_ok_iff.mp hb
  exact hok ⟨a, ha⟩

theorem Walks.mapNode (h : v.Walks done stops slots) (f : α → β)
    (hf : slots' (f v.node) = slots v.node) :
    (⟨v.result, f v.node, v.log⟩ : Visit ρ β).Walks done stops slots' := by
  obtain ⟨seen, rest, hstops, hreports, hok, hnode⟩ := h
  exact ⟨seen, rest, hstops, hreports, hok, hf.trans hnode⟩

/-- **Visits that walk are put together to visits that walk**, if the second one starts where the
first one ends. -/
theorem Walks.andThen {stopped : α → β} {next : ρ → Visit σ β} (hv : v.Walks done stops slots)
    (hstopped : slots' (stopped v.node) = slots v.node ++ Stop.slots more)
    (hnext : ∀ a, v.result = .ok a → (next a).Walks (slots v.node) more slots') :
    (v.andThen stopped next).Walks done (stops ++ more) slots' := by
  obtain ⟨seen, rest, rfl, hreports, hok, hnode⟩ := hv
  cases hr : v.result with
  | error err =>
    rw [andThen_error hr]
    refine ⟨seen, rest ++ more, List.append_assoc _ _ _, hreports, ?_, ?_⟩
    · rintro ⟨a, ha⟩
      cases ha
    · rw [hstopped, hnode, Stop.slots_append, List.append_assoc, List.append_assoc]
  | ok a =>
    -- nothing was left out, so the second visit goes on at the first stop behind
    obtain rfl := hok ⟨a, hr⟩
    obtain ⟨seen', rest', rfl, hreports', hok', hnode'⟩ := hnext a hr
    rw [andThen_ok hr]
    refine ⟨seen ++ seen', rest', ?_, List.rel_append hreports hreports', hok', ?_⟩
    · rw [List.append_nil, List.append_assoc]
    · rw [hnode', hnode, List.map_append, Stop.slots_nil, List.append_nil, List.append_assoc,
        List.append_assoc]

theorem Walks.guarded {rule : Except TypeError σ} {node : α} {next : σ → Visit ρ α}
    (hnode : slots node = done ++ Stop.slots stops)
    (hnext : ∀ a, rule = .ok a → (next a).Walks done stops slots) :
    (guarded rule node next).Walks done stops slots := by
  cases rule with
  | error err => exact walks_error hnode
  | ok a => exact hnext a rfl

/-- The end of a node whose children have been visited: what is reported is what is recorded. -/
theorem walks_settle {result : Except TypeError Ty} {node e : Expr} {a : List Nat} {Γ : Context}
    {base : List (Option Ty)}
    (hdone : done = base ++ Stop.slots (Expr.walkFrom Γ 0 node.children))
    (hslot : node.slot = e.slot) (hresult : ∀ t, result = .ok t → (Γ.infer e).result = .ok t) :
    (settle result node).Walks done [⟨a, Γ, .node e⟩] fun e' => base ++ Stop.slots (e'.walk Γ) := by
  cases result with
  | error err =>
    refine walks_error ?_
    rw [Stop.slots_walk, hslot, hdone, List.append_assoc]
    rfl
  | ok t =>
    refine ⟨[_], [], rfl, .cons (.written (hresult t rfl)) .nil, fun _ => rfl, ?_⟩
    show base ++ Stop.slots ((node.record t).walk Γ) = done ++ [some t]
    rw [Stop.slots_walk, Expr.children_record, Expr.slot_record, hdone, List.append_assoc]

/-- The start of a statement. -/
theorem Walks.entering {s : Stmt} {kind : StmtKind} {a : List Nat} {Γ : Context}
    (hkind : s.kind = kind) (h : v.Walks (done ++ [none]) stops slots) :
    (v.entering (.enterStmt kind)).Walks done (⟨a, Γ, .stmt s⟩ :: stops) slots := by
  obtain ⟨seen, rest, rfl, hreports, hok, hnode⟩ := h
  subst hkind
  refine ⟨_ :: seen, rest, rfl, .cons .entered hreports, hok, ?_⟩
  rw [node_entering, hnode, log_entering, List.append_assoc]
  rfl

end Visit

namespace Context

variable {Γ : Context} {done : List (Option Ty)}

/-! ## Expressions -/

/-- A call walks through its arguments if there are as many of them as parameters. -/
theorem checkCall_walks_of {n : String} {args : List Expr}
    (h : ∀ {ret : ReturnTy} {ts : List Ty}, args.length = ts.length →
      (Γ.inferArgs n ret 0 args ts).Walks done (Expr.walkFrom Γ 0 args) fun args' =>
        done ++ Stop.slots (Expr.walkFrom Γ 0 args')) :
    (Γ.checkCall n args).Walks done (Expr.walkFrom Γ 0 args) fun args' =>
      done ++ Stop.slots (Expr.walkFrom Γ 0 args') := by
  rw [checkCall]
  exact .guarded rfl fun sig hs => h (callee_eq_ok_iff.mp hs).2.symm

mutual

/-- **Inference walks through the nodes of an expression.** -/
theorem infer_walks : (e : Expr) → ∀ {done : List (Option Ty)},
    (Γ.infer e).Walks done (e.walk Γ) fun e' => done ++ Stop.slots (e'.walk Γ)
  | .const s c, _ => by
    rw [infer, Expr.walk]
    exact Visit.walks_settle (List.append_nil _).symm rfl fun _ ht => infer_const.trans ht
  | .var s x, _ => by
    rw [infer, Expr.walk]
    exact Visit.walks_settle (List.append_nil _).symm rfl fun _ ht => infer_var.trans ht
  | .binary s op l r, _ => by
    rw [infer, Expr.walk]
    refine ((infer_walks l).below 0).andThen ?_ fun lt hl =>
      ((infer_walks r).below 1).andThen ?_ fun rt hr => Visit.walks_settle ?_ rfl ?_
    -- the slots if the left operand fails, if the right one does, and if both have types
    · simp [Expr.walk, Expr.slot]
    · simp [Expr.walk, Expr.slot]
    · simp [Expr.walkFrom, Expr.children]
    · intro t ht
      simp only [result_infer_binary, hl, hr, Except.bind, ht]
  | .not s a, _ => by
    rw [infer, Expr.walk]
    refine ((infer_walks a).below 0).andThen ?_ fun u hu => Visit.walks_settle ?_ rfl ?_
    · simp [Expr.walk, Expr.slot]
    · simp [Expr.walkFrom, Expr.children]
    · intro t ht
      simp only [result_infer_not, hu, Except.bind, ht]
  | .get s a f, _ => by
    rw [infer, Expr.walk]
    refine ((infer_walks a).below 0).andThen ?_ fun u hu => Visit.walks_settle ?_ rfl ?_
    · simp [Expr.walk, Expr.slot]
    · simp [Expr.walkFrom, Expr.children]
    · intro t ht
      simp only [result_infer_get, hu, Except.bind, ht]
  | .set s a f v, _ => by
    rw [infer, Expr.walk]
    refine ((infer_walks a).below 0).andThen ?_ fun u hu => .guarded ?_ fun element he =>
      ((infer_walks v).below 1).andThen ?_ fun found hv => Visit.walks_settle ?_ rfl ?_
    · simp [Expr.walk, Expr.slot]
    · simp [Expr.walk, Expr.slot]
    · simp [Expr.walk, Expr.slot]
    · simp [Expr.walkFrom, Expr.children]
    · intro t ht
      simp only [result_infer_set, hu, he, hv, Except.bind, ht]
  | .deref s p, _ => by
    rw [infer, Expr.walk]
    refine ((infer_walks p).below 0).andThen ?_ fun u hu => Visit.walks_settle ?_ rfl ?_
    · simp [Expr.walk, Expr.slot]
    · simp [Expr.walkFrom, Expr.children]
    · intro t ht
      simp only [result_infer_deref, hu, Except.bind, ht]
  | .call s name args, _ => by
    rw [infer_call, Expr.walk]
    refine (checkCall_walks_of (inferArgs_walks args)).andThen ?_ fun ret hret =>
      Visit.walks_settle ?_ rfl ?_
    · simp [Expr.walk, Expr.slot]
    · rfl
    · intro t ht
      simp only [result_infer_call, hret, Except.bind, ht]

/-- As many arguments as parameters are needed: arguments without a parameter are not visited. -/
theorem inferArgs_walks : (es : List Expr) → ∀ {done : List (Option Ty)} {name : String}
    {ret : ReturnTy} {k : Nat} {ts : List Ty}, es.length = ts.length →
    (Γ.inferArgs name ret k es ts).Walks done (Expr.walkFrom Γ k es) fun es' =>
      done ++ Stop.slots (Expr.walkFrom Γ k es')
  | [], _, _, _, _, _, _ => by
    rw [inferArgs, Expr.walkFrom]
    exact Visit.walks_idle (fun _ => rfl) (by simp [Expr.walkFrom])
  | _ :: _, _, _, _, _, [], hlen => by cases hlen
  | a :: as, _, name, ret, k, t :: ts, hlen => by
    rw [inferArgs, Expr.walkFrom]
    refine ((infer_walks a).below k).andThen ?_ fun found _ => ?_
    · simp [Expr.walkFrom]
    · by_cases hf : found = t
      · rw [if_pos hf]
        exact (inferArgs_walks as (Nat.succ.inj hlen)).mapNode _ (by simp [Expr.walkFrom])
      · rw [if_neg hf]
        exact Visit.walks_error (by simp [Expr.walkFrom])

end

/-! ## Heads of statements -/

/-- A value is visited first; what is asked of its type afterwards reports nothing. -/
theorem value_walks {β : Type} {e : Expr} {wrap : Expr → β} {next : Ty → Visit Unit β}
    {slots : β → List (Option Ty)} (hwrap : ∀ e', slots (wrap e') = done ++ Stop.slots (e'.walk Γ))
    (hnext : ∀ t, ∃ result, next t = ⟨result, wrap (Γ.infer e).node, []⟩) :
    ((Γ.infer e).andThen wrap next).Walks done (Expr.walkFrom Γ 0 [e]) slots := by
  rw [Expr.walkFrom]
  refine ((infer_walks e).below 0).andThen ?_ fun t _ => ?_
  · rw [hwrap]
    exact (List.append_nil _).symm
  · obtain ⟨result, hresult⟩ := hnext t
    rw [hresult]
    refine Visit.walks_idle (fun _ => rfl) ?_
    rw [hwrap]
    exact (List.append_nil _).symm

theorem checkDefine_walks (x : Symbol) (value : Option Expr) :
    (Γ.checkDefine x value).Walks done (Expr.walkFrom Γ 0 value.toList) fun value' =>
      done ++ Stop.slots (Expr.walkFrom Γ 0 value'.toList) := by
  cases value with
  | none =>
    rw [toVisit_checkDefine_none]
    exact .guarded rfl fun _ _ => Visit.walks_idle (fun _ => rfl) rfl
  | some e =>
    rw [toVisit_checkDefine_some]
    refine value_walks (fun e' => ?_) fun t => ?_
    · simp [Expr.walkFrom]
    · cases Γ.declare x with
      | error err => exact ⟨_, rfl⟩
      | ok Δ => exact ⟨_, rfl⟩

theorem checkReturn_walks (value : Option Expr) :
    (Γ.checkReturn value).Walks done (Expr.walkFrom Γ 0 value.toList) fun value' =>
      done ++ Stop.slots (Expr.walkFrom Γ 0 value'.toList) := by
  unfold checkReturn
  cases Γ.returns with
  | void =>
    cases value with
    | none => exact Visit.walks_idle (fun _ => rfl) rfl
    | some e => exact Visit.walks_error rfl
  | value expected =>
    cases value with
    | none => exact Visit.walks_error rfl
    | some e => exact value_walks (fun e' => by simp [Expr.walkFrom]) fun t => ⟨_, rfl⟩

theorem checkCondition_walks (condition : Expr) :
    (Γ.checkCondition condition).Walks done (Expr.walkFrom Γ 0 [condition]) fun condition' =>
      done ++ Stop.slots (Expr.walkFrom Γ 0 [condition']) := by
  rw [checkCondition]
  exact value_walks (fun e' => by simp [Expr.walkFrom]) fun t => ⟨_, rfl⟩

theorem checkAssign_walks (x : Symbol) (value : Expr) :
    (Γ.checkAssign x value).Walks done (Expr.walkFrom Γ 0 [value]) fun value' =>
      done ++ Stop.slots (Expr.walkFrom Γ 0 [value']) := by
  rw [checkAssign]
  exact value_walks (fun e' => by simp [Expr.walkFrom]) fun t => ⟨_, rfl⟩

/-! ## Statements and blocks -/

theorem defines?_node_checkStmt (s : Stmt) : (Γ.checkStmt s).node.defines? = s.defines? := by
  rw [← Stmt.defines?_bare, bare_node_checkStmt, Stmt.defines?_bare]

mutual

/-- **Checking walks through a statement.** -/
theorem checkStmt_walks : (s : Stmt) → ∀ {Γ : Context} {done : List (Option Ty)},
    (Γ.checkStmt s).Walks done (s.walk Γ) fun s' => done ++ Stop.slots (s'.walk Γ)
  | .define x value, _, _ => by
    rw [checkStmt, Stmt.walk]
    refine Visit.Walks.entering rfl ((checkDefine_walks x value).mapNode _ ?_)
    simp [Stmt.walk]
  | .assign x value, _, _ => by
    rw [checkStmt, Stmt.walk]
    refine Visit.Walks.entering rfl ((checkAssign_walks x value).mapNode _ ?_)
    simp [Stmt.walk]
  | .ret value, _, _ => by
    rw [checkStmt, Stmt.walk]
    refine Visit.Walks.entering rfl ((checkReturn_walks value).mapNode _ ?_)
    simp [Stmt.walk]
  | .branch condition thenBlock elseBlock, _, _ => by
    rw [checkStmt, Stmt.walk]
    refine Visit.Walks.entering rfl ?_
    dsimp only [Passage.keeping]
    refine (checkCondition_walks condition).andThen ?_ fun _ _ => ?_
    · simp [Stmt.walk]
    refine ((checkBlock_walks thenBlock).below 1).andThen ?_ fun _ _ => ?_
    · simp [Stmt.walk]
    refine ((checkBlock_walks elseBlock).below 2).mapNode _ ?_
    simp [Stmt.walk]
  | .loop condition body, _, _ => by
    rw [checkStmt, Stmt.walk]
    refine Visit.Walks.entering rfl ?_
    dsimp only [Passage.keeping]
    refine (checkCondition_walks condition).andThen ?_ fun _ _ => ?_
    · simp [Stmt.walk]
    refine ((checkBlock_walks body).below 1).mapNode _ ?_
    simp [Stmt.walk]
  | .call name args, _, _ => by
    rw [checkStmt, Stmt.walk]
    refine Visit.Walks.entering rfl ((checkCall_walks_of (inferArgs_walks args)).map _ _ ?_)
    simp [Stmt.walk]

/-- **Checking walks through the statements of a block.** -/
theorem checkBlock_walks : (ss : List Stmt) →
    ∀ {Γ : Context} {done : List (Option Ty)} {k : Nat},
    (Γ.checkBlock ss).Walks done (Block.walkFrom Γ k ss) fun ss' =>
      done ++ Stop.slots (Block.walkFrom Γ k ss')
  | [], _, _, _ => by
    rw [checkBlock, Block.walkFrom]
    exact Visit.walks_idle (fun _ => rfl) (by simp [Block.walkFrom])
  | s :: ss, _, _, k => by
    rw [toVisit_checkBlock_cons, Block.walkFrom]
    refine ((checkStmt_walks s).below k).andThen ?_ fun _ _ => (checkBlock_walks ss).mapNode _ ?_
    · simp [Block.walkFrom, defines?_node_checkStmt]
    · simp [Block.walkFrom, defines?_node_checkStmt]

end

end Context

end BlockLang
