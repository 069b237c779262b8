import BlockLang.Proofs.Scoping.Visibility
import BlockLang.Proofs.Slots.Coherence

/-!
# The verdict is local

What checking does with a block depends on nothing but what the block itself asks its context: which
of the variables in it are declared, which signatures the functions called in it have, and, if it
returns anywhere, what is to be given back. Two contexts that agree on these (`AgreesOn`) lead to
passages that match in everything (`Passage.Matches`), errors included.

The proofs compare two runs step by step. Expressions are only read, so for them the two visits are
simply equal (`infer_congr`). For statements the contexts behind them differ as those in front did;
that the same variables come in addition is what keeps the agreement going through a block.

A signature that no call of an accepted body asks for may be added freely: this is the case of a
table that grows.
-/

namespace BlockLang

/-! ## What a statement asks its context -/

namespace Stmt

/-- The variable is introduced or used by the statement, the blocks inside it apart. -/
def Mentions (s : Stmt) (x : Symbol) : Prop := s.defines? = some x ∨ s.Uses x

/-- The function is called by the statement or in one of its expressions at any depth, the blocks
inside it apart. -/
def Calls (s : Stmt) (name : String) : Prop :=
  s.calls? = some name ∨ ∃ e ∈ s.exprs, ∃ n ∈ e.nodes, n.calls? = some name

end Stmt

namespace Context

variable {Γ Δ : Context}

/-- The contexts know the same about the variables and functions of an expression. -/
structure AgreesIn (Γ Δ : Context) (e : Expr) : Prop where
  declares : ∀ n ∈ e.nodes, ∀ x, n.reads? = some x → (Γ.Declares x ↔ Δ.Declares x)
  signatures : ∀ n ∈ e.nodes, ∀ name, n.calls? = some name →
    Γ.signatures.find? name = Δ.signatures.find? name

/-- The contexts know the same about the variables and functions of a statement, the blocks inside
it apart, and ask for the same result if it is a return. -/
structure AgreesAt (Γ Δ : Context) (s : Stmt) : Prop where
  declares : ∀ x, s.Mentions x → (Γ.Declares x ↔ Δ.Declares x)
  signatures : ∀ name, s.Calls name → Γ.signatures.find? name = Δ.signatures.find? name
  returns : s.isReturn = true → Γ.returns = Δ.returns

/-- The contexts agree at every statement of a block, at any depth. -/
def AgreesOn (Γ Δ : Context) (block : Block) : Prop :=
  ∀ s ∈ Block.stmts block, Γ.AgreesAt Δ s

theorem AgreesIn.child {e a : Expr} (h : Γ.AgreesIn Δ e) (ha : a ∈ e.children) :
    Γ.AgreesIn Δ a :=
  ⟨fun n hn => h.declares n (Expr.mem_nodes_of_child ha hn),
    fun n hn => h.signatures n (Expr.mem_nodes_of_child ha hn)⟩

theorem AgreesAt.expr {s : Stmt} {e : Expr} (h : Γ.AgreesAt Δ s) (he : e ∈ s.exprs) :
    Γ.AgreesIn Δ e := by
  constructor
  · intro n hn x hx
    exact h.declares x (Or.inr (Or.inr ⟨e, he, n, hn, hx⟩))
  · intro n hn name hname
    exact h.signatures name (Or.inr ⟨e, he, n, hn, hname⟩)

/-- Contexts that agree still do when both learn the same variables. -/
theorem AgreesAt.addAll {s : Stmt} (h : Γ.AgreesAt Δ s) (xs : List Symbol) :
    (Γ.addAll xs).AgreesAt (Δ.addAll xs) s := by
  refine ⟨?_, ?_, ?_⟩
  · intro x hx
    rw [declares_addAll, declares_addAll, h.declares x hx]
  · intro name hname
    rw [signatures_addAll, signatures_addAll, h.signatures name hname]
  · intro hret
    rw [returns_addAll, returns_addAll, h.returns hret]

/-! ## Expressions -/

theorem typeOf_congr {x : Symbol} (h : Γ.Declares x ↔ Δ.Declares x) :
    Γ.typeOf x = Δ.typeOf x := by
  by_cases hx : Γ.Declares x
  · rw [typeOf_of_declares hx, typeOf_of_declares (h.mp hx)]
  · have hx' : ¬ Δ.Declares x := fun hc => hx (h.mpr hc)
    rw [typeOf_of_not_declares hx, typeOf_of_not_declares hx']

theorem inferArgs_congr {name : String} {ret : ReturnTy} {k : Nat} {es : List Expr} {ts : List Ty}
    (h : ∀ a ∈ es, Γ.infer a = Δ.infer a) :
    Γ.inferArgs name ret k es ts = Δ.inferArgs name ret k es ts := by
  induction es generalizing k ts with
  | nil => rw [inferArgs, inferArgs]
  | cons e es ih =>
    cases ts with
    | nil => rw [inferArgs, inferArgs]
    | cons t ts =>
      have he : Γ.infer e = Δ.infer e := h e List.mem_cons_self
      have hes : ∀ a ∈ es, Γ.infer a = Δ.infer a := fun a ha => h a (List.mem_cons_of_mem e ha)
      rw [inferArgs, inferArgs, he, ih hes]

theorem checkCall_congr {name : String} {args : List Expr}
    (hf : Γ.signatures.find? name = Δ.signatures.find? name)
    (h : ∀ a ∈ args, Γ.infer a = Δ.infer a) : Γ.checkCall name args = Δ.checkCall name args := by
  have hcallee : Γ.callee name args.length = Δ.callee name args.length := by
    rw [callee, callee, hf]
  have hargs : ∀ sig : Signature, Γ.inferArgs name sig.ret 0 args sig.params =
      Δ.inferArgs name sig.ret 0 args sig.params := fun _ => inferArgs_congr h
  simp only [checkCall, hcallee, hargs]

/-- **Inference depends on the variables and functions in the expression only.** -/
theorem infer_congr {e : Expr} (h : Γ.AgreesIn Δ e) : Γ.infer e = Δ.infer e := by
  induction e using Expr.induction_children with
  | step e ih =>
    have hchild : ∀ a ∈ e.children, Γ.infer a = Δ.infer a := fun a ha => ih a ha (h.child ha)
    cases e with
    | const s c => rw [infer, infer]
    | var s x =>
      have hx := h.declares (.var s x) (Expr.mem_nodes_self _) x rfl
      rw [infer, infer, typeOf_congr hx]
    | binary s op l r =>
      have hl : Γ.infer l = Δ.infer l := hchild l (by simp [Expr.children])
      have hr : Γ.infer r = Δ.infer r := hchild r (by simp [Expr.children])
      rw [infer, infer, hl, hr]
    | not s a =>
      have ha : Γ.infer a = Δ.infer a := hchild a (by simp [Expr.children])
      rw [infer, infer, ha]
    | get s a f =>
      have ha : Γ.infer a = Δ.infer a := hchild a (by simp [Expr.children])
      rw [infer, infer, ha]
    | set s a f v =>
      have ha : Γ.infer a = Δ.infer a := hchild a (by simp [Expr.children])
      have hv : Γ.infer v = Δ.infer v := hchild v (by simp [Expr.children])
      rw [infer, infer, ha, hv]
    | deref s p =>
      have hp : Γ.infer p = Δ.infer p := hchild p (by simp [Expr.children])
      rw [infer, infer, hp]
    | call s name args =>
      have hf := h.signatures (.call s name args) (Expr.mem_nodes_self _) name rfl
      have hargs : ∀ a ∈ args, Γ.infer a = Δ.infer a := hchild
      rw [infer_call, infer_call, checkCall_congr hf hargs]

end Context

/-! ## Passages that match -/

/-- The passages, which start from one context each, have the same verdict, leave the same tree with
the same recorded types, and have the same log. Behind them the same variables are known in
addition, all of which are new to both contexts. -/
structure Passage.Matches {α : Type} (Γ Δ : Context) (p q : Passage α) : Prop where
  visit : p.toVisit = q.toVisit
  added : ∃ xs, (Γ.Fresh xs ∧ Δ.Fresh xs) ∧ p.context = Γ.addAll xs ∧ q.context = Δ.addAll xs

namespace Passage.Matches

variable {α : Type} {Γ Δ : Context}

/-- Visits that leave the contexts alone match when they are equal. -/
theorem keeping {v w : Visit Unit α} (h : v = w) :
    Passage.Matches Γ Δ (.keeping Γ v) (.keeping Δ w) :=
  ⟨h, [], ⟨Context.fresh_nil, Context.fresh_nil⟩, rfl, rfl⟩

/-- Visits that add one new variable match when they are equal. -/
theorem adding {v w : Visit Unit α} {x : Symbol} (h : v = w) (hΓ : ¬ Γ.Declares x)
    (hΔ : ¬ Δ.Declares x) : Passage.Matches Γ Δ ⟨v, Γ.add x⟩ ⟨w, Δ.add x⟩ :=
  ⟨h, [x], ⟨Context.fresh_cons.mpr ⟨hΓ, Context.fresh_nil⟩,
    Context.fresh_cons.mpr ⟨hΔ, Context.fresh_nil⟩⟩, rfl, rfl⟩

/-- What is made of the visits does not disturb the match. -/
theorem map {β : Type} {p q : Passage α} (h : Passage.Matches Γ Δ p q)
    (f : Visit Unit α → Visit Unit β) :
    Passage.Matches Γ Δ ⟨f p.toVisit, p.context⟩ ⟨f q.toVisit, q.context⟩ :=
  ⟨congrArg f h.visit, h.added⟩

end Passage.Matches

namespace Context

variable {Γ Δ : Context} {s : Stmt} {ss : List Stmt}

/-! ## Statements -/

/-- A definition asks whether its variable is declared, and declares it in both contexts or in
neither. -/
theorem checkDefine_matches {x : Symbol} {value : Option Expr}
    (hx : Γ.Declares x ↔ Δ.Declares x) (hv : ∀ a ∈ value, Γ.infer a = Δ.infer a) :
    Passage.Matches Γ Δ (Γ.checkDefine x value) (Δ.checkDefine x value) := by
  -- both contexts refuse the variable or both take it, and the value is visited before that
  by_cases hΓ : Γ.Declares x
  · have hdΓ := declare_of_declares hΓ
    have hdΔ := declare_of_declares (hx.mp hΓ)
    cases value with
    | none =>
      rw [checkDefine, checkDefine, hdΓ, hdΔ]
      exact .keeping rfl
    | some a =>
      simp only [checkDefine, hv a rfl, hdΓ, hdΔ]
      cases (Δ.infer a).result with
      | error e => exact .keeping rfl
      | ok found => exact .keeping rfl
  · have hΔ : ¬ Δ.Declares x := fun hc => hΓ (hx.mpr hc)
    have hdΓ := declare_of_not_declares hΓ
    have hdΔ := declare_of_not_declares hΔ
    cases value with
    | none =>
      rw [checkDefine, checkDefine, hdΓ, hdΔ]
      exact .adding rfl hΓ hΔ
    | some a =>
      simp only [checkDefine, hv a rfl, hdΓ, hdΔ]
      cases (Δ.infer a).result with
      | error e => exact .keeping rfl
      | ok found => exact .adding rfl hΓ hΔ

theorem checkReturn_congr {value : Option Expr} (hr : Γ.returns = Δ.returns)
    (hv : ∀ a ∈ value, Γ.infer a = Δ.infer a) : Γ.checkReturn value = Δ.checkReturn value := by
  cases hret : Δ.returns with
  | void => cases value <;> simp only [checkReturn, hr, hret]
  | value expected =>
    cases value with
    | none => simp only [checkReturn, hr, hret]
    | some a => simp only [checkReturn, hr, hret, hv a rfl]

/-- Statements match when the contexts agree at them and the blocks inside are visited alike. -/
theorem checkStmt_matches (h : Γ.AgreesAt Δ s)
    (hb : ∀ b ∈ s.blocks, (Γ.checkBlock b).toVisit = (Δ.checkBlock b).toVisit) :
    Passage.Matches Γ Δ (Γ.checkStmt s) (Δ.checkStmt s) := by
  have hinfer : ∀ a ∈ s.exprs, Γ.infer a = Δ.infer a := fun a ha => infer_congr (h.expr ha)
  cases s with
  | define x value =>
    have hx : Γ.Declares x ↔ Δ.Declares x := h.declares x (Or.inl rfl)
    have hvalue : ∀ a ∈ value, Γ.infer a = Δ.infer a :=
      fun a ha => hinfer a (Option.mem_toList.mpr ha)
    rw [checkStmt, checkStmt]
    exact (checkDefine_matches hx hvalue).map fun v =>
      Visit.entering (.enterStmt .define) ⟨v.result, Stmt.define x v.node, v.log⟩
  | assign x value =>
    have hx : Γ.Declares x ↔ Δ.Declares x := h.declares x (Or.inr (Or.inl rfl))
    have hvalue : Γ.infer value = Δ.infer value := hinfer value List.mem_cons_self
    rw [checkStmt, checkStmt, checkAssign, checkAssign, hvalue, typeOf_congr hx]
    exact .keeping rfl
  | ret value =>
    have hvalue : ∀ a ∈ value, Γ.infer a = Δ.infer a :=
      fun a ha => hinfer a (Option.mem_toList.mpr ha)
    rw [checkStmt, checkStmt, checkReturn_congr (h.returns rfl) hvalue]
    exact .keeping rfl
  | branch condition thenBlock elseBlock =>
    have hc : Γ.infer condition = Δ.infer condition := hinfer condition List.mem_cons_self
    have ht := hb thenBlock (by simp [Stmt.blocks])
    have he := hb elseBlock (by simp [Stmt.blocks])
    simp only [checkStmt, checkCondition, hc, ht, he]
    exact .keeping rfl
  | loop condition body =>
    have hc : Γ.infer condition = Δ.infer condition := hinfer condition List.mem_cons_self
    have hbody := hb body (by simp [Stmt.blocks])
    simp only [checkStmt, checkCondition, hc, hbody]
    exact .keeping rfl
  | call name args =>
    have hf := h.signatures name (Or.inl rfl)
    have hargs : ∀ a ∈ args, Γ.infer a = Δ.infer a := hinfer
    rw [checkStmt, checkStmt, checkCall_congr hf hargs]
    exact .keeping rfl

/-! ## Blocks -/

/-- The rest of a block is compared in the contexts behind the first statement, which differ from
the first ones by the same variables. -/
theorem checkBlock_cons_matches (hs : Passage.Matches Γ Δ (Γ.checkStmt s) (Δ.checkStmt s))
    (hrest : ∀ xs, Passage.Matches (Γ.addAll xs) (Δ.addAll xs) ((Γ.addAll xs).checkBlock ss)
      ((Δ.addAll xs).checkBlock ss)) :
    Passage.Matches Γ Δ (Γ.checkBlock (s :: ss)) (Δ.checkBlock (s :: ss)) := by
  obtain ⟨hvisit, xs, ⟨hΓ, hΔ⟩, hcΓ, hcΔ⟩ := hs
  rw [checkBlock, checkBlock, hvisit, hcΓ, hcΔ]
  cases (Δ.checkStmt s).result with
  | error e => exact ⟨rfl, xs, ⟨hΓ, hΔ⟩, rfl, rfl⟩
  | ok _ =>
    obtain ⟨hvisit', ys, ⟨hΓ', hΔ'⟩, hcΓ', hcΔ'⟩ := hrest xs
    refine ⟨by simp only [hvisit'], xs ++ ys, ⟨?_, ?_⟩, ?_, ?_⟩
    · exact fresh_append.mpr ⟨hΓ, hΓ'⟩
    · exact fresh_append.mpr ⟨hΔ, hΔ'⟩
    · exact hcΓ'.trans addAll_append.symm
    · exact hcΔ'.trans addAll_append.symm

/-- **Contexts that agree on a block lead to matching passages of it.** -/
theorem checkBlock_matches {block : Block} (h : Γ.AgreesOn Δ block) :
    Passage.Matches Γ Δ (Γ.checkBlock block) (Δ.checkBlock block) := by
  induction block using Block.induction_blocks generalizing Γ Δ with
  | step block inner =>
    induction block generalizing Γ Δ with
    | nil =>
      rw [checkBlock, checkBlock]
      exact .keeping rfl
    | cons s ss ih =>
      have hhead : ∀ r ∈ s.stmts, Γ.AgreesAt Δ r := fun r hr => h r (List.mem_append_left _ hr)
      have htail : Γ.AgreesOn Δ ss := fun r hr => h r (List.mem_append_right _ hr)
      have hblocks : ∀ b ∈ s.blocks, (Γ.checkBlock b).toVisit = (Δ.checkBlock b).toVisit := by
        intro b hb
        have hagrees : Γ.AgreesOn Δ b :=
          fun r hr => hhead r (Stmt.mem_stmts.mpr (Or.inr ⟨b, hb, hr⟩))
        exact (inner s List.mem_cons_self b hb hagrees).visit
      have hs := checkStmt_matches (hhead s (Stmt.mem_stmts.mpr (Or.inl rfl))) hblocks
      refine checkBlock_cons_matches hs fun xs => ?_
      exact ih (fun r hr => inner r (List.mem_cons_of_mem s hr)) fun r hr => (htail r hr).addAll xs

/-! ## Tables that grow -/

/-- The statements of an accepted block, at any depth, have accepted heads, in contexts with more
variables. -/
theorem exists_headVerdict_of_mem_stmts {block : Block} (h : (Γ.checkBlock block).result = .ok ())
    (hs : s ∈ Block.stmts block) : ∃ xs, (Γ.addAll xs).headVerdict s = .ok () := by
  induction block using Block.induction_blocks generalizing Γ with
  | step block inner =>
    induction block generalizing Γ with
    | nil => cases hs
    | cons r rs ih =>
      obtain ⟨hr, hrs⟩ := checkBlock_cons_eq_ok_iff.mp h
      obtain ⟨hhead, hblocks⟩ := checkStmt_eq_ok_iff.mp hr
      rcases List.mem_append.mp hs with hs | hs
      · rcases Stmt.mem_stmts.mp hs with rfl | ⟨b, hb, hs⟩
        · exact ⟨[], hhead⟩
        · exact inner r List.mem_cons_self b hb (hblocks b hb) hs
      · obtain ⟨xs, hxs⟩ := ih (fun q hq => inner q (List.mem_cons_of_mem r hq)) hrs hs
        rw [← addAll_append] at hxs
        exact ⟨_, hxs⟩

/-- What an accepted call asks for is in the table. -/
theorem exists_signature_of_checkCall {name : String} {args : List Expr} {ret : ReturnTy}
    (h : (Γ.checkCall name args).result = .ok ret) : ∃ sig, Γ.signatures.find? name = some sig := by
  obtain ⟨params, hf, -⟩ := checkCall_eq_ok_iff.mp h
  exact ⟨_, hf⟩

/-- Every function that an accepted head calls is in the table. -/
theorem exists_signature_of_calls {name : String} (h : Γ.headVerdict s = .ok ())
    (hc : s.Calls name) : ∃ sig, Γ.signatures.find? name = some sig := by
  rcases hc with hc | ⟨e, he, n, hn, hc⟩
  · cases s with
    | call f args =>
      cases hc
      obtain ⟨ret, hr⟩ := headVerdict_call_eq_ok_iff.mp h
      exact exists_signature_of_checkCall hr
    | _ => cases hc
  · obtain ⟨t, ht⟩ := exists_infer_of_mem_exprs h e he
    obtain ⟨u, hu⟩ := exists_infer_of_mem_nodes ht hn
    cases n with
    | call slot f args =>
      cases hc
      exact exists_signature_of_checkCall (infer_call_eq_ok_iff.mp hu)
    | _ => cases hc

theorem addAll_withSignatures {table : SignatureTable} {xs : List Symbol} :
    { Γ with signatures := table }.addAll xs = { Γ.addAll xs with signatures := table } := by
  induction xs generalizing Γ with
  | nil => rfl
  | cons x xs ih => exact ih (Γ := Γ.add x)

/-- A larger table makes no difference to a block that is accepted with the smaller one. -/
theorem agreesOn_of_extends {table : SignatureTable} {block : Block}
    (hext : ∀ name sig, Γ.signatures.find? name = some sig → table.find? name = some sig)
    (h : (Γ.checkBlock block).result = .ok ()) :
    Γ.AgreesOn { Γ with signatures := table } block := by
  intro s hs
  obtain ⟨xs, hxs⟩ := exists_headVerdict_of_mem_stmts h hs
  refine ⟨fun _ _ => Iff.rfl, ?_, fun _ => rfl⟩
  intro name hname
  -- a call of an unknown function would have been refused, so the name stands in the smaller table
  obtain ⟨sig, hsig⟩ := exists_signature_of_calls hxs hname
  rw [signatures_addAll] at hsig
  rw [hsig, hext name sig hsig]

/--
**The verdict is local.**

Contexts that agree on the variables that occur in a block, on the signatures of the functions that
it calls and, if it returns, on the result, lead to the same verdict with the same error, the same
recorded types, and the same new variables. So a function that is accepted with a table of
signatures is accepted, with the same recorded types, with every table that has more.
-/
theorem verdict_is_local :
    (∀ (Γ Δ : Context) (block : Block), Γ.AgreesOn Δ block →
      Passage.Matches Γ Δ (Γ.checkBlock block) (Δ.checkBlock block)) ∧
    ∀ (Γ : Context) (table : SignatureTable) (params : List Symbol) (body : Block),
      (∀ name sig, Γ.signatures.find? name = some sig → table.find? name = some sig) →
      (Γ.checkFunction params body).result = .ok () →
        ({ Γ with signatures := table }.checkFunction params body).result = .ok () ∧
        ({ Γ with signatures := table }.checkFunction params body).node =
          (Γ.checkFunction params body).node := by
  refine ⟨fun Γ Δ block h => checkBlock_matches h, ?_⟩
  intro Γ table params body hext h
  obtain ⟨hfresh, hbody⟩ := checkFunction_eq_ok_iff.mp h
  have hfresh' : { Γ with signatures := table }.Fresh params := hfresh
  have hext' : ∀ name sig, (Γ.addAll params).signatures.find? name = some sig →
      table.find? name = some sig := by
    rw [signatures_addAll]
    exact hext
  have hvisit := (checkBlock_matches (agreesOn_of_extends hext' hbody)).visit
  rw [← addAll_withSignatures] at hvisit
  constructor
  · refine checkFunction_eq_ok_iff.mpr ⟨hfresh', ?_⟩
    rw [← hvisit]
    exact hbody
  · rw [node_checkFunction_of_fresh hfresh, node_checkFunction_of_fresh hfresh', hvisit]

/-- A number that is introduced with a truth value. -/
def clash : Block := [.define ⟨⟨0⟩, "x", .int .w32⟩ (some (.const none (.bool true)))]

/-- A table with a procedure `f` in it. -/
def procedures : SignatureTable := ⟨[("f", ⟨[], .void⟩)]⟩

/-- The definition is refused with the same error, and its variable stays behind, whatever else is
declared, known or to be given back. The procedure may be called also when there are more functions
than that one. -/
theorem clash_is_local :
    let Δ : Context :=
      { signatures := procedures, returns := .value .bool, scope := ⟨[⟨1⟩], by simp⟩ }
    let more : SignatureTable := procedures.insert "g" ⟨[.bool], .value .bool⟩
    AgreesOn {} Δ clash ∧ Passage.Matches {} Δ (checkBlock {} clash) (Δ.checkBlock clash) ∧
      (checkBlock {} clash).result = .error (.mismatch (.int .w32) .bool) ∧
      (checkFunction { signatures := procedures } [] [.call "f" []]).result = .ok () ∧
      (checkFunction { signatures := more } [] [.call "f" []]).result = .ok () := by
  intro Δ more
  have hagrees : AgreesOn {} Δ clash := by
    intro s hs
    obtain rfl := List.mem_singleton.mp hs
    refine ⟨?_, ?_, ?_⟩
    · rintro x (hx | hx | ⟨e, he, n, hn, hx⟩)
      · cases hx
        decide
      · cases hx
      · obtain rfl := List.mem_singleton.mp he
        obtain rfl := List.mem_singleton.mp hn
        cases hx
    · rintro name (hname | ⟨e, he, n, hn, hname⟩)
      · cases hname
      · obtain rfl := List.mem_singleton.mp he
        obtain rfl := List.mem_singleton.mp hn
        cases hname
    · intro hret
      cases hret
  have hext : ∀ name sig, procedures.find? name = some sig → more.find? name = some sig := by
    intro name sig h
    have hne : name ≠ "g" := by
      rintro rfl
      cases h
    rw [SignatureTable.find?_insert_of_ne procedures _ hne]
    exact h
  refine ⟨hagrees, verdict_is_local.1 {} Δ clash hagrees, rfl, rfl, ?_⟩
  exact (verdict_is_local.2 { signatures := procedures } more [] [.call "f" []] hext rfl).1

end Context

end BlockLang
