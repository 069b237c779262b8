import BlockLang.Proofs.Typing.Judgement
import BlockLang.Typing.Infer

/-!
# Inference decides the typing of expressions

`Context.infer` finds a type exactly when the rules of `Context.HasType` derive it
(`infer_eq_ok_iff`), and a call is accepted exactly when the function is known and its arguments
have the types of the parameters (`checkCall_eq_ok_iff`). So the rules give an expression at most
one type, and whether they derive a type can be decided (`infer_sound_and_complete`).

The proofs go in two steps. First the verdict on a node is read as the verdicts on its children
followed by the rule of the node: one equivalence for each kind of node and each outcome. After that
`infer` is not unfolded any more.
-/

namespace BlockLang

/-! ## Verdicts of composed visits -/

theorem Except.map_eq_ok_iff {ε α β : Type} {v : Except ε α} {f : α → β} {b : β} :
    v.map f = .ok b ↔ ∃ a, v = .ok a ∧ f a = b := by
  cases v with
  | error e => simp [Except.map]
  | ok a => simp [Except.map]

theorem Except.map_eq_error_iff {ε α β : Type} {v : Except ε α} {f : α → β} {e : ε} :
    v.map f = .error e ↔ v = .error e := by
  cases v with
  | error e => simp [Except.map]
  | ok a => simp [Except.map]

namespace Visit

variable {ρ σ α β : Type} {v : Visit ρ α} {stopped : α → β} {next : ρ → Visit σ β}

theorem andThen_eq_ok_iff {b : σ} :
    (v.andThen stopped next).result = .ok b ↔
      ∃ a, v.result = .ok a ∧ (next a).result = .ok b := by
  rw [result_andThen]
  cases v.result with
  | error e => simp [Except.bind]
  | ok a => simp [Except.bind]

theorem andThen_eq_error_iff {e : TypeError} :
    (v.andThen stopped next).result = .error e ↔
      v.result = .error e ∨ ∃ a, v.result = .ok a ∧ (next a).result = .error e := by
  rw [result_andThen]
  cases v.result with
  | error e => simp [Except.bind]
  | ok a => simp [Except.bind]

variable {rule : Except TypeError σ} {node : α} {go : σ → Visit ρ α}

theorem guarded_eq_ok_iff {b : ρ} :
    (guarded rule node go).result = .ok b ↔ ∃ a, rule = .ok a ∧ (go a).result = .ok b := by
  cases rule with
  | error e => simp
  | ok a => simp

theorem guarded_eq_error_iff {e : TypeError} :
    (guarded rule node go).result = .error e ↔
      rule = .error e ∨ ∃ a, rule = .ok a ∧ (go a).result = .error e := by
  cases rule with
  | error e => simp
  | ok a => simp

end Visit

/-! ## Verdicts on nodes -/

namespace Context

variable {Γ : Context} {s : Option Ty} {t : Ty} {e : TypeError}

theorem callee_eq_ok_iff {name : String} {count : Nat} {sig : Signature} :
    Γ.callee name count = .ok sig ↔
      Γ.signatures.find? name = some sig ∧ sig.params.length = count := by
  rw [callee]
  cases Γ.signatures.find? name with
  | none => simp
  | some other =>
    by_cases h : other.params.length = count
    · simp only [if_pos h, Except.ok.injEq, Option.some.injEq]
      exact ⟨fun he => ⟨he, he ▸ h⟩, fun he => he.1⟩
    · simp only [if_neg h, Option.some.injEq]
      exact ⟨fun hc => absurd hc (by simp), fun hc => absurd (hc.1 ▸ hc.2) h⟩

theorem infer_const {c : Literal} : (Γ.infer (.const s c)).result = .ok c.ty := by
  rw [infer, Visit.result_settle]

theorem infer_var {x : Symbol} : (Γ.infer (.var s x)).result = Γ.typeOf x := by
  rw [infer, Visit.result_settle]

theorem result_infer_binary {op : BinaryOp} {l r : Expr} :
    (Γ.infer (.binary s op l r)).result =
      (Γ.infer l).result.bind fun lt => (Γ.infer r).result.bind fun rt => op.apply lt rt := by
  simp only [infer, Visit.result_andThen, Visit.result_settle]

theorem result_infer_not {a : Expr} :
    (Γ.infer (.not s a)).result = (Γ.infer a).result.bind fun t => t.negate := by
  simp only [infer, Visit.result_andThen, Visit.result_settle]

theorem result_infer_get {a : Expr} {f : Selector} :
    (Γ.infer (.get s a f)).result =
      (Γ.infer a).result.bind fun t => (t.elementAt f).map Prod.snd := by
  simp only [infer, Visit.result_andThen, Visit.result_settle]

theorem result_infer_set {a v : Expr} {f : Selector} :
    (Γ.infer (.set s a f v)).result =
      (Γ.infer a).result.bind fun t => (t.elementAt f).bind fun element =>
        (Γ.infer v).result.bind fun found => (element.2.expect found).map fun _ => t := by
  simp only [infer, Visit.result_andThen, Visit.result_guarded, Visit.result_settle]

theorem result_infer_deref {p : Expr} :
    (Γ.infer (.deref s p)).result = (Γ.infer p).result.bind fun t => t.target := by
  simp only [infer, Visit.result_andThen, Visit.result_settle]

theorem result_infer_call {name : String} {args : List Expr} :
    (Γ.infer (.call s name args)).result =
      (Γ.checkCall name args).result.bind fun ret => ret.asValue name := by
  simp only [infer_call, Visit.result_andThen, Visit.result_settle]

theorem infer_binary_eq_ok_iff {op : BinaryOp} {l r : Expr} :
    (Γ.infer (.binary s op l r)).result = .ok t ↔
      ∃ lt, (Γ.infer l).result = .ok lt ∧ ∃ rt, (Γ.infer r).result = .ok rt ∧
        op.apply lt rt = .ok t := by
  rw [infer]
  simp only [Visit.andThen_eq_ok_iff, Visit.result_settle]

theorem infer_not_eq_ok_iff {a : Expr} :
    (Γ.infer (.not s a)).result = .ok t ↔
      ∃ u, (Γ.infer a).result = .ok u ∧ u.negate = .ok t := by
  rw [infer]
  simp only [Visit.andThen_eq_ok_iff, Visit.result_settle]

theorem infer_get_eq_ok_iff {a : Expr} {f : Selector} :
    (Γ.infer (.get s a f)).result = .ok t ↔
      ∃ u, (Γ.infer a).result = .ok u ∧ ∃ i, u.elementAt f = .ok (i, t) := by
  rw [infer]
  simp only [Visit.andThen_eq_ok_iff, Visit.result_settle, Except.map_eq_ok_iff]
  refine exists_congr fun u => and_congr_right fun _ => ?_
  constructor
  · rintro ⟨⟨i, t'⟩, hel, rfl⟩
    exact ⟨i, hel⟩
  · rintro ⟨i, hel⟩
    exact ⟨(i, t), hel, rfl⟩

theorem infer_set_eq_ok_iff {a v : Expr} {f : Selector} :
    (Γ.infer (.set s a f v)).result = .ok t ↔
      (Γ.infer a).result = .ok t ∧ ∃ i u, t.elementAt f = .ok (i, u) ∧
        (Γ.infer v).result = .ok u := by
  rw [infer]
  simp only [Visit.andThen_eq_ok_iff, Visit.guarded_eq_ok_iff, Visit.result_settle]
  constructor
  · rintro ⟨at', ha, ⟨i, u⟩, hu, found, hv, hw⟩
    cases hexp : u.expect found with
    | error e => rw [hexp] at hw; cases hw
    | ok _ =>
      rw [hexp] at hw
      cases hw
      rw [Ty.expect_eq_ok_iff.mp hexp] at hv
      exact ⟨ha, i, u, hu, hv⟩
  · rintro ⟨ha, i, u, hu, hv⟩
    refine ⟨t, ha, (i, u), hu, u, hv, ?_⟩
    rw [Ty.expect_eq_ok_iff.mpr rfl]
    rfl

theorem infer_deref_eq_ok_iff {p : Expr} :
    (Γ.infer (.deref s p)).result = .ok t ↔ (Γ.infer p).result = .ok (.pointer t) := by
  rw [infer]
  simp only [Visit.andThen_eq_ok_iff, Visit.result_settle, Ty.target_eq_ok_iff]
  constructor
  · rintro ⟨u, hu, rfl⟩
    exact hu
  · intro h
    exact ⟨_, h, rfl⟩

theorem infer_call_eq_ok_iff {name : String} {args : List Expr} :
    (Γ.infer (.call s name args)).result = .ok t ↔
      (Γ.checkCall name args).result = .ok (.value t) := by
  rw [infer_call]
  simp only [Visit.andThen_eq_ok_iff, Visit.result_settle, ReturnTy.asValue_eq_ok_iff]
  exact ⟨fun ⟨u, hu, he⟩ => he ▸ hu, fun h => ⟨_, h, rfl⟩⟩

/-! ## Verdicts on arguments -/

section Arguments

variable {name : String} {ret : ReturnTy} {k : Nat}

theorem inferArgs_nil {ts : List Ty} : (Γ.inferArgs name ret k [] ts).result = .ok ret := by
  rw [inferArgs]

theorem inferArgs_cons_eq_ok_iff {a : Expr} {as : List Expr} {u : Ty} {us : List Ty}
    {r : ReturnTy} :
    (Γ.inferArgs name ret k (a :: as) (u :: us)).result = .ok r ↔
      (Γ.infer a).result = .ok u ∧ (Γ.inferArgs name ret (k + 1) as us).result = .ok r := by
  rw [inferArgs]
  simp only [Visit.andThen_eq_ok_iff]
  constructor
  · rintro ⟨found, ha, h⟩
    by_cases hf : found = u
    · rw [if_pos hf] at h
      exact ⟨hf ▸ ha, h⟩
    · rw [if_neg hf] at h
      cases h
  · rintro ⟨ha, h⟩
    refine ⟨u, ha, ?_⟩
    rw [if_pos rfl]
    exact h

theorem checkCall_eq_ok_iff_inferArgs {args : List Expr} {r : ReturnTy} :
    (Γ.checkCall name args).result = .ok r ↔
      ∃ sig, (Γ.signatures.find? name = some sig ∧ sig.params.length = args.length) ∧
        (Γ.inferArgs name sig.ret 0 args sig.params).result = .ok r := by
  rw [checkCall]
  simp only [Visit.guarded_eq_ok_iff, callee_eq_ok_iff]

end Arguments

/-! ## Inference follows the rules -/

mutual

theorem hasType_of_infer : (e : Expr) → ∀ {t : Ty}, (Γ.infer e).result = .ok t → Γ.HasType e t
  | .const s c, t, h => by
    rw [infer_const] at h
    cases h
    exact .const
  | .var s x, t, h => by
    rw [infer_var] at h
    by_cases hx : Γ.Declares x
    · rw [typeOf_of_declares hx] at h
      cases h
      exact .var hx
    · rw [typeOf_of_not_declares hx] at h
      cases h
  | .binary s op l r, t, h => by
    obtain ⟨lt, hl, rt, hr, ha⟩ := infer_binary_eq_ok_iff.mp h
    exact .binary (hasType_of_infer l hl) (hasType_of_infer r hr) (BinaryOp.apply_eq_ok_iff.mp ha)
  | .not s a, t, h => by
    obtain ⟨u, hu, hn⟩ := infer_not_eq_ok_iff.mp h
    obtain ⟨rfl, rfl⟩ := Ty.negate_eq_ok_iff.mp hn
    exact .not (hasType_of_infer a hu)
  | .get s a f, t, h => by
    obtain ⟨u, hu, i, hi⟩ := infer_get_eq_ok_iff.mp h
    exact .get (hasType_of_infer a hu) (Ty.elementAt_eq_ok_iff.mp hi)
  | .set s a f v, t, h => by
    obtain ⟨ha, i, u, hi, hv⟩ := infer_set_eq_ok_iff.mp h
    exact .set (hasType_of_infer a ha) (Ty.elementAt_eq_ok_iff.mp hi) (hasType_of_infer v hv)
  | .deref s p, t, h => .deref (hasType_of_infer p (infer_deref_eq_ok_iff.mp h))
  | .call s name args, t, h => by
    obtain ⟨⟨params, ret⟩, ⟨hf, hlen⟩, hargs⟩ :=
      checkCall_eq_ok_iff_inferArgs.mp (infer_call_eq_ok_iff.mp h)
    obtain ⟨rfl, htypes⟩ := haveTypes_of_inferArgs args hlen.symm hargs
    exact .call hf htypes

theorem haveTypes_of_inferArgs : (es : List Expr) → ∀ {name : String} {ret r : ReturnTy} {k : Nat}
    {ts : List Ty}, es.length = ts.length → (Γ.inferArgs name ret k es ts).result = .ok r →
    r = ret ∧ Γ.HaveTypes es ts
  | [], _, _, _, _, [], _, h => by
    rw [inferArgs_nil] at h
    cases h
    exact ⟨rfl, .nil⟩
  | [], _, _, _, _, _ :: _, hlen, _ => by cases hlen
  | _ :: _, _, _, _, _, [], hlen, _ => by cases hlen
  | a :: as, _, _, _, _, u :: us, hlen, h => by
    obtain ⟨ha, hrest⟩ := inferArgs_cons_eq_ok_iff.mp h
    obtain ⟨hr, htypes⟩ := haveTypes_of_inferArgs as (Nat.succ.inj hlen) hrest
    exact ⟨hr, .cons (hasType_of_infer a ha) htypes⟩

end

/-! ## The rules are followed by inference -/

mutual

theorem infer_of_hasType : (e : Expr) → ∀ {t : Ty}, Γ.HasType e t → (Γ.infer e).result = .ok t
  | .const s c, _, .const => infer_const
  | .var s x, _, .var hx => by
    rw [infer_var]
    exact typeOf_of_declares hx
  | .binary s op l r, t, .binary hl hr hj =>
    infer_binary_eq_ok_iff.mpr ⟨_, infer_of_hasType l hl, _, infer_of_hasType r hr,
      BinaryOp.apply_eq_ok_iff.mpr hj⟩
  | .not s a, _, .not ha =>
    infer_not_eq_ok_iff.mpr ⟨_, infer_of_hasType a ha, Ty.negate_eq_ok_iff.mpr ⟨rfl, rfl⟩⟩
  | .get s a f, _, .get ha hs =>
    infer_get_eq_ok_iff.mpr ⟨_, infer_of_hasType a ha, _, Ty.elementAt_eq_ok_iff.mpr hs⟩
  | .set s a f v, _, .set ha hs hv =>
    infer_set_eq_ok_iff.mpr ⟨infer_of_hasType a ha, _, _, Ty.elementAt_eq_ok_iff.mpr hs,
      infer_of_hasType v hv⟩
  | .deref s p, _, .deref hp => infer_deref_eq_ok_iff.mpr (infer_of_hasType p hp)
  | .call s name args, _, .call hf hargs => by
    refine infer_call_eq_ok_iff.mpr (checkCall_eq_ok_iff_inferArgs.mpr ⟨_, ⟨hf, ?_⟩, ?_⟩)
    · exact hargs.length_eq.symm
    · exact inferArgs_of_haveTypes args hargs

theorem inferArgs_of_haveTypes : (es : List Expr) → ∀ {name : String} {ret : ReturnTy} {k : Nat}
    {ts : List Ty}, Γ.HaveTypes es ts → (Γ.inferArgs name ret k es ts).result = .ok ret
  | [], _, _, _, _, .nil => inferArgs_nil
  | a :: as, _, _, _, _, .cons ha hrest =>
    inferArgs_cons_eq_ok_iff.mpr ⟨infer_of_hasType a ha, inferArgs_of_haveTypes as hrest⟩

end

/-- **Inference finds a type exactly when the rules derive it.** -/
theorem infer_eq_ok_iff {e : Expr} : (Γ.infer e).result = .ok t ↔ Γ.HasType e t :=
  ⟨hasType_of_infer e, infer_of_hasType e⟩

/-- **A call is accepted exactly when the function is known and the arguments have the types of its
parameters.** -/
theorem checkCall_eq_ok_iff {name : String} {args : List Expr} {ret : ReturnTy} :
    (Γ.checkCall name args).result = .ok ret ↔
      ∃ params, Γ.signatures.find? name = some ⟨params, ret⟩ ∧ Γ.HaveTypes args params := by
  rw [checkCall_eq_ok_iff_inferArgs]
  constructor
  · rintro ⟨⟨params, other⟩, ⟨hf, hlen⟩, h⟩
    obtain ⟨rfl, htypes⟩ := haveTypes_of_inferArgs args hlen.symm h
    exact ⟨params, hf, htypes⟩
  · rintro ⟨params, hf, htypes⟩
    exact ⟨_, ⟨hf, htypes.length_eq.symm⟩, inferArgs_of_haveTypes args htypes⟩

/-! ## The typing of expressions is decidable and unique -/

/-- An expression has at most one type. -/
theorem HasType.unique {e : Expr} {u : Ty} (h : Γ.HasType e t) (h' : Γ.HasType e u) : t = u := by
  have ht : (Γ.infer e).result = .ok t := infer_eq_ok_iff.mpr h
  have hu : (Γ.infer e).result = .ok u := infer_eq_ok_iff.mpr h'
  rw [ht] at hu
  exact Except.ok.inj hu

instance (Γ : Context) (e : Expr) (t : Ty) : Decidable (Γ.HasType e t) :=
  match h : (Γ.infer e).result with
  | .ok u => decidable_of_iff (u = t) (by rw [← infer_eq_ok_iff, h, Except.ok.injEq])
  | .error _ => isFalse (by rw [← infer_eq_ok_iff, h]; simp)

/--
**Inference is sound and complete for the typing rules.**

It finds exactly the type that the rules derive, and fails only where they derive none. So the rules
give an expression at most one type.
-/
theorem infer_sound_and_complete (Γ : Context) (e : Expr) :
    (∀ t, (Γ.infer e).result = .ok t ↔ Γ.HasType e t) ∧
      (∀ err, (Γ.infer e).result = .error err → ∀ t, ¬ Γ.HasType e t) ∧
      ∀ t u, Γ.HasType e t → Γ.HasType e u → t = u := by
  refine ⟨fun t => infer_eq_ok_iff, ?_, fun t u => HasType.unique⟩
  intro err h t ht
  rw [infer_eq_ok_iff.mpr ht] at h
  cases h

/-- A record with a field that is an array. -/
def recordTy : Ty := .struct [("flag", .bool), ("items", .array (.int .w8) 2)]

/-- A number `x` and a pointer `p` to a record are declared, and `f` may be called. -/
def recordContext : Context :=
  { signatures := ⟨[("f", ⟨[.int .w8, .bool], .value (.int .w32)⟩)]⟩
    scope := ⟨[⟨1⟩, ⟨0⟩], by decide⟩ }

/-- The call `f((*p).items[1], x < 5)`, added to `x`. -/
def recordSum : Expr :=
  .binary none .add (.var none ⟨⟨0⟩, "x", .int .w32⟩) <| .call none "f"
    [.get none (.get none (.deref none (.var none ⟨⟨1⟩, "p", .pointer recordTy⟩))
      (.name "items")) (.index 1),
      .binary none .lt (.var none ⟨⟨0⟩, "x", .int .w32⟩) (.const none (.int .w32 5))]

/-- A sum of two truth values. -/
def misfitSum : Expr := .binary none .add (.const none (.bool true)) (.const none (.bool true))

/-- The rules derive one type for the sum, which inference finds, and none for the other. -/
theorem recordSum_sound_and_complete :
    recordContext.HasType recordSum (.int .w32) ∧
      (recordContext.infer recordSum).result = .ok (.int .w32) ∧
      (∀ t, recordContext.HasType recordSum t → t = .int .w32) ∧
      (recordContext.infer misfitSum).result =
        .error (.incompatibleTypes .add .bool .bool) ∧
      ∀ t, ¬ recordContext.HasType misfitSum t := by
  have hsum : recordContext.HasType recordSum (.int .w32) := by decide
  obtain ⟨hiff, -, hunique⟩ := infer_sound_and_complete recordContext recordSum
  have hmisfit : (recordContext.infer misfitSum).result =
      .error (.incompatibleTypes .add .bool .bool) := rfl
  exact ⟨hsum, (hiff _).mpr hsum, fun t ht => hunique t _ ht hsum, hmisfit,
    (infer_sound_and_complete recordContext misfitSum).2.1 _ hmisfit⟩

end Context

end BlockLang
