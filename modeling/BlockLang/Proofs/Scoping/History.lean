import BlockLang.Proofs.Context
import Mathlib.Data.Set.Card

/-!
# Histories of contexts

Contexts are created, branched off from one another and extended, in any order. This module follows
all contexts of a program through any sequence of such operations. Besides the contexts themselves a
run keeps a history of what happened, and the history alone says what each context has to contain: a
declaration reaches the context that it was made on, and every context that branches off from one
that it has reached (`Reaches`).

* `arrived_snoc` — what one more event adds to what has reached a context;
* `Faithful.step` — contexts that agree with their history do so after one more operation;
* `getElem?_perform_of_ne` — an operation changes no context but the one that it declares in;
* `contexts_follow_history` — so at every point of every run a context declares exactly what has
  reached it, and its size counts that.
-/

namespace BlockLang

/-! ## Operations and events -/

/-- An operation on contexts, which are numbered in the order in which they come into being. -/
inductive ContextOp where
  | create (signatures : SignatureTable) (returns : ReturnTy)
  | branch (parent : Nat)
  | declare (context : Nat) (x : Symbol)

/-- What has come of an operation. -/
inductive ContextEvent where
  | created (context : Nat)
  | branched (parent child : Nat)
  | declared (context : Nat) (x : Symbol)
  | refused (context : Nat) (x : Symbol) (error : TypeError)

/-- The context in which an operation declares a variable. -/
def ContextOp.target? : ContextOp → Option Nat
  | declare context _ => some context
  | _ => none

/-- All contexts at a point of a run, and what has happened until then. -/
structure ContextRun where
  contexts : List Context := []
  history : List ContextEvent := []

namespace ContextRun

/-- The event of an operation, and the contexts after it. Where the context does not exist, nothing
happens. -/
def perform (contexts : List Context) : ContextOp → Option ContextEvent × List Context
  | .create signatures returns =>
    (some (.created contexts.length), contexts ++ [{ signatures, returns }])
  | .branch parent =>
    match contexts[parent]? with
    | none => (none, contexts)
    | some Γ => (some (.branched parent contexts.length), contexts ++ [Γ])
  | .declare c x =>
    match contexts[c]? with
    | none => (none, contexts)
    | some Γ =>
      match Γ.declare x with
      | .error e => (some (.refused c x e), contexts)
      | .ok Δ => (some (.declared c x), contexts.set c Δ)

/-- The run with one more operation. -/
def step (r : ContextRun) (op : ContextOp) : ContextRun :=
  ⟨(perform r.contexts op).2, r.history ++ (perform r.contexts op).1.toList⟩

/-- The run of a sequence of operations, with no context at its start. -/
def after (ops : List ContextOp) : ContextRun := ops.foldl step {}

/--
The declaration of a variable at time `k` reaches a context until the time that is given last: it
was made on the context itself, or it had reached the parent when the context branched off.
-/
inductive Reaches (history : List ContextEvent) (k : Nat) (x : Symbol) : Nat → Nat → Prop
  | own {c time : Nat} :
      history[k]? = some (.declared c x) → k < time → Reaches history k x c time
  | inherited {parent c j time : Nat} :
      history[j]? = some (.branched parent c) → j < time → Reaches history k x parent j →
      Reaches history k x c time

/-- The declarations that have reached a context up to now. -/
def Arrived (history : List ContextEvent) (c k : Nat) (x : Symbol) : Prop :=
  Reaches history k x c history.length

/-! ## Declarations that reach a context -/

section Reaching

variable {history : List ContextEvent} {event : ContextEvent} {k c time : Nat} {x : Symbol}

theorem Reaches.lt (h : Reaches history k x c time) : k < time := by
  induction h with
  | own _ hk => exact hk
  | inherited _ hj _ ih => exact Nat.lt_trans ih hj

/-- What has reached a context stays. -/
theorem Reaches.mono {later : Nat} (h : Reaches history k x c time) (hle : time ≤ later) :
    Reaches history k x c later := by
  cases h with
  | own hk hlt => exact .own hk (Nat.lt_of_lt_of_le hlt hle)
  | inherited hj hlt hp => exact .inherited hj (Nat.lt_of_lt_of_le hlt hle) hp

/-- What happens later has no influence on what has reached a context before. -/
theorem reaches_append_iff {future : List ContextEvent} (hle : time ≤ history.length) :
    Reaches (history ++ future) k x c time ↔ Reaches history k x c time := by
  constructor
  · intro h
    induction h with
    | own hk hlt =>
      rw [List.getElem?_append_left (by omega)] at hk
      exact .own hk hlt
    | inherited hj hlt _ ih =>
      rw [List.getElem?_append_left (by omega)] at hj
      exact .inherited hj hlt (ih (by omega))
  · intro h
    induction h with
    | own hk hlt =>
      refine .own ?_ hlt
      rw [List.getElem?_append_left (by omega)]
      exact hk
    | inherited hj hlt _ ih =>
      refine .inherited ?_ hlt (ih (by omega))
      rw [List.getElem?_append_left (by omega)]
      exact hj

/--
**What one more event adds.** A declaration reaches its own context, and a branch hands on what has
reached the parent.
-/
theorem arrived_snoc :
    Arrived (history ++ [event]) c k x ↔
      Arrived history c k x ∨ (k = history.length ∧ event = .declared c x) ∨
        ∃ parent, event = .branched parent c ∧ Arrived history parent k x := by
  have hlast : (history ++ [event])[history.length]? = some event := by simp
  unfold Arrived
  rw [List.length_append, List.length_singleton]
  constructor
  · intro h
    cases h with
    | own hk hlt =>
      rcases Nat.lt_succ_iff_lt_or_eq.mp hlt with hlt | rfl
      · rw [List.getElem?_append_left hlt] at hk
        exact Or.inl (.own hk hlt)
      · rw [hlast] at hk
        exact Or.inr (Or.inl ⟨rfl, Option.some.inj hk⟩)
    | inherited hj hlt hp =>
      rcases Nat.lt_succ_iff_lt_or_eq.mp hlt with hlt | rfl
      · rw [List.getElem?_append_left hlt] at hj
        exact Or.inl (.inherited hj hlt ((reaches_append_iff (Nat.le_of_lt hlt)).mp hp))
      · rw [hlast] at hj
        exact Or.inr (Or.inr ⟨_, Option.some.inj hj, (reaches_append_iff (Nat.le_refl _)).mp hp⟩)
  · rintro (h | ⟨rfl, rfl⟩ | ⟨parent, rfl, hp⟩)
    · exact ((reaches_append_iff (Nat.le_refl _)).mpr h).mono (Nat.le_succ _)
    · exact .own hlast (Nat.lt_succ_self _)
    · exact .inherited hlast (Nat.lt_succ_self _) ((reaches_append_iff (Nat.le_refl _)).mpr hp)

end Reaching

/-! ## One operation -/

section Perform

variable {contexts : List Context} {op : ContextOp} {c : Nat} {x : Symbol} {Γ : Context}

theorem perform_branch (hc : contexts[c]? = some Γ) :
    perform contexts (.branch c) = (some (.branched c contexts.length), contexts ++ [Γ]) := by
  simp only [perform, hc]

theorem perform_declare_of_declares (hc : contexts[c]? = some Γ) (hx : Γ.Declares x) :
    perform contexts (.declare c x) = (some (.refused c x (.redeclared x.name)), contexts) := by
  simp only [perform, hc, Context.declare_of_declares hx]

theorem perform_declare_of_not_declares (hc : contexts[c]? = some Γ) (hx : ¬ Γ.Declares x) :
    perform contexts (.declare c x) = (some (.declared c x), contexts.set c (Γ.add x)) := by
  simp only [perform, hc, Context.declare_of_not_declares hx]

/-- **What an operation can do.** -/
theorem perform_cases (contexts : List Context) (op : ContextOp) :
    perform contexts op = (none, contexts) ∨
    (∃ Γ : Context, Γ.scope = {} ∧
      perform contexts op = (some (.created contexts.length), contexts ++ [Γ])) ∨
    (∃ parent Γ, contexts[parent]? = some Γ ∧
      perform contexts op = (some (.branched parent contexts.length), contexts ++ [Γ])) ∨
    (∃ c x e, perform contexts op = (some (.refused c x e), contexts)) ∨
    ∃ c x Γ, contexts[c]? = some Γ ∧ ¬ Γ.Declares x ∧
      perform contexts op = (some (.declared c x), contexts.set c (Γ.add x)) := by
  cases op with
  | create signatures returns => exact Or.inr (Or.inl ⟨{ signatures, returns }, rfl, rfl⟩)
  | branch parent =>
    cases hp : contexts[parent]? with
    | none => exact Or.inl (by simp only [perform, hp])
    | some Γ => exact Or.inr (Or.inr (Or.inl ⟨parent, Γ, hp, perform_branch hp⟩))
  | declare c x =>
    cases hc : contexts[c]? with
    | none => exact Or.inl (by simp only [perform, hc])
    | some Γ =>
      by_cases hx : Γ.Declares x
      · exact Or.inr (Or.inr (Or.inr (Or.inl ⟨c, x, _, perform_declare_of_declares hc hx⟩)))
      · exact Or.inr (Or.inr (Or.inr (Or.inr
          ⟨c, x, Γ, hc, hx, perform_declare_of_not_declares hc hx⟩)))

/-- **An operation changes no context but the one that it declares in.** -/
theorem getElem?_perform_of_ne (hc : c < contexts.length) (hne : op.target? ≠ some c) :
    (perform contexts op).2[c]? = contexts[c]? := by
  cases op with
  | create signatures returns => exact List.getElem?_append_left hc
  | branch parent =>
    cases hp : contexts[parent]? with
    | none => simp only [perform, hp]
    | some Γ =>
      rw [perform_branch hp]
      exact List.getElem?_append_left hc
  | declare d x =>
    have hdc : d ≠ c := fun he => hne (by rw [he]; rfl)
    cases hd : contexts[d]? with
    | none => simp only [perform, hd]
    | some Γ =>
      by_cases hx : Γ.Declares x
      · rw [perform_declare_of_declares hd hx]
      · rw [perform_declare_of_not_declares hd hx]
        exact List.getElem?_set_ne hdc

end Perform

/-! ## Contexts that hold what the history says -/

/-- The context declares the variables of the declarations and no others, and counts each
declaration once. -/
structure Collects (Γ : Context) (declarations : Nat → Symbol → Prop) : Prop where
  declares : ∀ x, Γ.Declares x ↔ ∃ k y, declarations k y ∧ y.id = x.id
  size : Γ.scope.size = {k | ∃ y, declarations k y}.ncard

namespace Collects

variable {Γ : Context} {declarations more : Nat → Symbol → Prop} {x : Symbol} {n : Nat}

theorem congr (h : Collects Γ declarations) (hiff : ∀ k y, more k y ↔ declarations k y) :
    Collects Γ more := by
  have hsame : more = declarations := by
    funext k y
    exact propext (hiff k y)
  rw [hsame]
  exact h

/-- A context with an empty scope is one that nothing has reached. -/
theorem empty (hΓ : Γ.scope = {}) (hnone : ∀ k y, ¬ declarations k y) :
    Collects Γ declarations := by
  constructor
  · intro x
    constructor
    · intro hx
      rw [Context.Declares, hΓ] at hx
      exact absurd hx List.not_mem_nil
    · rintro ⟨k, y, hy, -⟩
      exact absurd hy (hnone k y)
  · have hset : {k | ∃ y, declarations k y} = ∅ := by
      ext k
      simp [hnone]
    rw [hset, Set.ncard_empty, hΓ]
    rfl

/-- A new variable is added by one declaration, which comes after the others. -/
theorem add (h : Collects Γ declarations) (hx : ¬ Γ.Declares x)
    (hbefore : ∀ k y, declarations k y → k < n)
    (hmore : ∀ k y, more k y ↔ declarations k y ∨ (k = n ∧ y = x)) :
    Collects (Γ.add x) more := by
  constructor
  · intro z
    rw [Context.declares_add, h.declares]
    constructor
    · rintro (hz | ⟨k, y, hy, hid⟩)
      · exact ⟨n, x, (hmore n x).mpr (Or.inr ⟨rfl, rfl⟩), hz.symm⟩
      · exact ⟨k, y, (hmore k y).mpr (Or.inl hy), hid⟩
    · rintro ⟨k, y, hy, hid⟩
      rcases (hmore k y).mp hy with hy | ⟨-, rfl⟩
      · exact Or.inr ⟨k, y, hy, hid⟩
      · exact Or.inl hid.symm
  · have hset : {k | ∃ y, more k y} = insert n {k | ∃ y, declarations k y} := by
      ext k
      simp only [Set.mem_ofPred_eq, Set.mem_insert_iff, hmore]
      constructor
      · rintro ⟨y, hy | ⟨hk, -⟩⟩
        · exact Or.inr ⟨y, hy⟩
        · exact Or.inl hk
      · rintro (hk | ⟨y, hy⟩)
        · exact ⟨x, Or.inr ⟨hk, rfl⟩⟩
        · exact ⟨y, Or.inl hy⟩
    have hnew : n ∉ {k | ∃ y, declarations k y} := by
      rintro ⟨y, hy⟩
      exact Nat.lt_irrefl n (hbefore n y hy)
    have hfinite : {k | ∃ y, declarations k y}.Finite := by
      refine (Set.finite_lt_nat n).subset ?_
      rintro k ⟨y, hy⟩
      exact hbefore k y hy
    rw [hset, Set.ncard_insert_of_notMem hnew hfinite, ← h.size]
    exact Context.size_add_of_not_declares hx

end Collects

/-- No declaration has reached a context that does not exist, and the others hold what has reached
them. -/
structure Faithful (r : ContextRun) : Prop where
  lt_of_arrived : ∀ {c k x}, Arrived r.history c k x → c < r.contexts.length
  collects : ∀ {c Γ}, r.contexts[c]? = some Γ → Collects Γ (Arrived r.history c)

namespace Faithful

variable {contexts : List Context} {history : List ContextEvent} {event : ContextEvent}
  {Γ : Context}

/-- One more context leaves the others as they are, if its event is about no other. -/
theorem push (hf : Faithful ⟨contexts, history⟩)
    (hnew : Collects Γ (Arrived (history ++ [event]) contexts.length))
    (hold : ∀ c k x, c ≠ contexts.length →
      (Arrived (history ++ [event]) c k x ↔ Arrived history c k x)) :
    Faithful ⟨contexts ++ [Γ], history ++ [event]⟩ := by
  constructor
  · intro c k x h
    show c < (contexts ++ [Γ]).length
    rw [List.length_append, List.length_singleton]
    by_cases hc : c = contexts.length
    · omega
    · have hlt : c < contexts.length := hf.lt_of_arrived ((hold c k x hc).mp h)
      omega
  · intro c Δ h
    have hget : (contexts ++ [Γ])[c]? = some Δ := h
    by_cases hc : c = contexts.length
    · subst hc
      rw [List.getElem?_concat_length] at hget
      rw [← Option.some.inj hget]
      exact hnew
    · have hlt : c < contexts.length := by
        have hbound := (List.getElem?_eq_some_iff.mp hget).1
        rw [List.length_append, List.length_singleton] at hbound
        omega
      rw [List.getElem?_append_left hlt] at hget
      exact (hf.collects hget).congr fun k x => hold c k x hc

/-- A new variable is declared in one context, and the event says so. -/
theorem declare {c : Nat} {x : Symbol} (hf : Faithful ⟨contexts, history⟩)
    (hc : contexts[c]? = some Γ) (hx : ¬ Γ.Declares x) :
    Faithful ⟨contexts.set c (Γ.add x), history ++ [.declared c x]⟩ := by
  have hlt : c < contexts.length := (List.getElem?_eq_some_iff.mp hc).1
  constructor
  · intro d k y h
    show d < (contexts.set c (Γ.add x)).length
    rw [List.length_set]
    rcases arrived_snoc.mp h with h | ⟨-, he⟩ | ⟨_, he, -⟩
    · exact hf.lt_of_arrived h
    · cases he
      exact hlt
    · cases he
  · intro d Δ h
    have hget : (contexts.set c (Γ.add x))[d]? = some Δ := h
    by_cases hd : c = d
    · subst hd
      rw [List.getElem?_set_self hlt] at hget
      rw [← Option.some.inj hget]
      refine (hf.collects hc).add hx (fun k y hy => Reaches.lt hy) fun k y => ?_
      show Arrived (history ++ [.declared c x]) c k y ↔ _
      simp [arrived_snoc, eq_comm]
    · rw [List.getElem?_set_ne hd] at hget
      refine (hf.collects hget).congr fun k y => ?_
      show Arrived (history ++ [.declared c x]) d k y ↔ _
      simp [arrived_snoc, hd]

/-- **Contexts that agree with their history do so after one more operation.** -/
theorem step {r : ContextRun} (hf : Faithful r) (op : ContextOp) : Faithful (r.step op) := by
  obtain ⟨contexts, history⟩ := r
  unfold ContextRun.step
  rcases perform_cases contexts op with
    hp | ⟨Γ, hΓ, hp⟩ | ⟨parent, Γ, hparent, hp⟩ | ⟨c, x, e, hp⟩ | ⟨c, x, Γ, hc, hx, hp⟩
  · simp only [hp, Option.toList_none, List.append_nil]
    exact hf
  · simp only [hp, Option.toList_some]
    -- nothing can have reached a context before it is there
    refine hf.push (.empty hΓ fun k x h => ?_) fun c k x _ => by simp [arrived_snoc]
    have harrived : Arrived history contexts.length k x := by simpa [arrived_snoc] using h
    exact Nat.lt_irrefl _ (hf.lt_of_arrived harrived)
  · simp only [hp, Option.toList_some]
    refine hf.push ((hf.collects hparent).congr fun k x => ?_) fun c k x hc => ?_
    · have hnone : ¬ Arrived history contexts.length k x :=
        fun h => Nat.lt_irrefl _ (hf.lt_of_arrived h)
      simp [arrived_snoc, hnone]
    · have hne : contexts.length ≠ c := fun he => hc he.symm
      simp [arrived_snoc, hne]
  · simp only [hp, Option.toList_some]
    have hiff : ∀ d k y, Arrived (history ++ [.refused c x e]) d k y ↔ Arrived history d k y := by
      intro d k y
      simp [arrived_snoc]
    exact ⟨fun h => hf.lt_of_arrived ((hiff _ _ _).mp h),
      fun hget => (hf.collects hget).congr fun k y => hiff _ k y⟩
  · simp only [hp, Option.toList_some]
    exact hf.declare hc hx

/-- **The contexts of every run agree with its history.** -/
theorem after (ops : List ContextOp) : Faithful (after ops) := by
  have hrun : ∀ (ops : List ContextOp) {r : ContextRun}, Faithful r →
      Faithful (ops.foldl ContextRun.step r) := by
    intro ops
    induction ops with
    | nil => exact fun hf => hf
    | cons op ops ih => exact fun hf => ih (hf.step op)
  refine hrun ops ⟨?_, ?_⟩
  · intro c k x h
    exact absurd h.lt (Nat.not_lt_zero k)
  · intro c Γ h
    cases h

end Faithful

/--
**Branches are isolated, and contexts are what their history makes of them.**

At every point of every run, that is after every sequence of operations: a context declares exactly
the variables that were declared on it, or on an ancestor before the branch that leads to it, and
its size is the number of these declarations. A further declaration is refused exactly when the
variable is declared, and no context changes then. No operation changes a context other than the
one that it declares in. A context that is created is empty, and one that branches off is what its
parent is then; both come behind the others, and the history says so.
-/
theorem contexts_follow_history (ops : List ContextOp) :
    (∀ c Γ, (after ops).contexts[c]? = some Γ →
      (∀ x, Γ.scope.contains x = true ↔
        ∃ k y, Arrived (after ops).history c k y ∧ y.id = x.id) ∧
      Γ.scope.size = {k | ∃ y, Arrived (after ops).history c k y}.ncard ∧
      ∀ x, (perform (after ops).contexts (.declare c x)).1 =
          (if Γ.scope.contains x then some (.refused c x (.redeclared x.name))
            else some (.declared c x)) ∧
        (Γ.scope.contains x = true →
          (perform (after ops).contexts (.declare c x)).2 = (after ops).contexts)) ∧
    (∀ op c, c < (after ops).contexts.length → op.target? ≠ some c →
      (perform (after ops).contexts op).2[c]? = (after ops).contexts[c]?) ∧
    (∀ signatures returns, perform (after ops).contexts (.create signatures returns) =
      (some (.created (after ops).contexts.length),
        (after ops).contexts ++ [{ signatures := signatures, returns := returns }])) ∧
    ∀ c Γ, (after ops).contexts[c]? = some Γ → perform (after ops).contexts (.branch c) =
      (some (.branched c (after ops).contexts.length), (after ops).contexts ++ [Γ]) := by
  refine ⟨fun c Γ hc => ?_, fun op c hc hne => getElem?_perform_of_ne hc hne, fun _ _ => rfl,
    fun c Γ hc => perform_branch hc⟩
  have hcollects := (Faithful.after ops).collects hc
  refine ⟨fun x => Scope.contains_iff.trans (hcollects.declares x), hcollects.size, fun x => ?_⟩
  by_cases hx : Γ.Declares x
  · have hcontains : Γ.scope.contains x = true := Scope.contains_iff.mpr hx
    rw [perform_declare_of_declares hc hx, if_pos hcontains]
    exact ⟨rfl, fun _ => rfl⟩
  · have hcontains : ¬ Γ.scope.contains x = true := fun h => hx (Scope.contains_iff.mp h)
    rw [perform_declare_of_not_declares hc hx, if_neg hcontains]
    exact ⟨rfl, fun h => absurd h hcontains⟩

/-- A context with `a`, a branch of it with `b` in addition and a branch of that branch; `c` is
declared in the first context after the branch was made. -/
def twoBranches : List ContextOp :=
  [.create {} .void, .declare 0 ⟨⟨0⟩, "a", .bool⟩, .branch 0, .declare 1 ⟨⟨1⟩, "b", .bool⟩,
    .declare 0 ⟨⟨2⟩, "c", .bool⟩, .declare 1 ⟨⟨0⟩, "a", .bool⟩, .branch 1]

/-- The last branch holds `b` and `a`, each from another ancestor, and not `c`. It refuses `a`, and
what it declares itself reaches nobody else. -/
theorem twoBranches_follow_history :
    let contexts := (after twoBranches).contexts
    let Γ : Context := { scope := ⟨[⟨1⟩, ⟨0⟩], by decide⟩ }
    contexts[2]? = some Γ ∧
      (∃ k y, Arrived (after twoBranches).history 2 k y ∧ y.id = ⟨0⟩) ∧
      (¬ ∃ k y, Arrived (after twoBranches).history 2 k y ∧ y.id = ⟨2⟩) ∧
      {k | ∃ y, Arrived (after twoBranches).history 2 k y}.ncard = 2 ∧
      (perform contexts (.declare 2 ⟨⟨0⟩, "a", .bool⟩)).2 = contexts ∧
      (∀ c < 2, (perform contexts (.declare 2 ⟨⟨2⟩, "c", .bool⟩)).2[c]? = contexts[c]?) ∧
      perform contexts (.branch 2) = (some (.branched 2 3), contexts ++ [Γ]) := by
  intro contexts Γ
  have hΓ : contexts[2]? = some Γ := rfl
  obtain ⟨hcollects, hkept, -, hbranch⟩ := contexts_follow_history twoBranches
  obtain ⟨hcontains, hsize, hdeclare⟩ := hcollects 2 Γ hΓ
  refine ⟨hΓ, ?_, ?_, hsize.symm, ?_, ?_, hbranch 2 Γ hΓ⟩
  · exact (hcontains ⟨⟨0⟩, "a", .bool⟩).mp rfl
  · exact fun h => absurd ((hcontains ⟨⟨2⟩, "c", .bool⟩).mpr h) (by decide)
  · exact (hdeclare ⟨⟨0⟩, "a", .bool⟩).2 rfl
  · intro c hc
    refine hkept _ c (Nat.lt_succ_of_lt hc) ?_
    intro he
    exact Nat.lt_irrefl 2 (Option.some.inj he ▸ hc)

end ContextRun

end BlockLang
