import BlockLang.Proofs.Typing.Fault

/-!
# Outcomes of calls

A call is looked up and its arguments are counted before any of them is visited. After that the
arguments decide, from left to right: the first one that does not fit its parameter ends the call,
with its own error if it has no type and with a mismatch at its position otherwise. If all fit, the
call gives what the signature says.

* `inferArgs_cases` — the loop over the arguments: as long as the arguments so far fit, the next one
  that does not fit decides;
* `unknown_of_infer_error`, `ne_of_infer_error` — an argument may itself be a call, of the same
  function even, and its errors are passed on as they are. None of them looks like an error of the
  call around it;
* `checkCall_exact` — the outcomes of a call, and its two uses as a statement and as an expression.
-/

namespace BlockLang.Context

variable {Γ : Context} {name : String} {args : List Expr} {params : List Ty} {err : TypeError}

/-! ## Arguments and parameters -/

/-- The argument at the position does not fit, for the reason that the error gives: it has no type,
or another one than its parameter. -/
def MisfitAt (Γ : Context) (name : String) (args : List Expr) (params : List Ty) (i : Nat)
    (err : TypeError) : Prop :=
  ∃ a expected, args[i]? = some a ∧ params[i]? = some expected ∧
    ((Γ.infer a).result = .error err ∨
      ∃ found, (Γ.infer a).result = .ok found ∧ found ≠ expected ∧
        err = .argumentMismatch name i expected found)

/-- The argument at the position is the first one that does not fit. -/
def FirstMisfit (Γ : Context) (name : String) (args : List Expr) (params : List Ty) (i : Nat)
    (err : TypeError) : Prop :=
  (∀ j < i, Γ.FitsAt args params j) ∧ Γ.MisfitAt name args params i err

theorem MisfitAt.not_fitsAt {i : Nat} (h : Γ.MisfitAt name args params i err) :
    ¬ Γ.FitsAt args params i := by
  obtain ⟨a, expected, ha, hp, herr⟩ := h
  intro hfits
  have hok := hfits a expected ha hp
  rcases herr with herror | ⟨found, hfound, hne, -⟩
  · rw [hok] at herror
    cases herror
  · rw [hok] at hfound
    cases hfound
    exact hne rfl

/-- There is one reason for which an argument does not fit. -/
theorem MisfitAt.unique {i : Nat} {err' : TypeError} (h : Γ.MisfitAt name args params i err)
    (h' : Γ.MisfitAt name args params i err') : err = err' := by
  obtain ⟨a, expected, ha, hp, herr⟩ := h
  obtain ⟨a', expected', ha', hp', herr'⟩ := h'
  rw [ha] at ha'
  rw [hp] at hp'
  cases ha'
  cases hp'
  cases hr : (Γ.infer a).result with
  | error e => simp_all
  | ok found => simp_all

/-- There is at most one first argument that does not fit. -/
theorem FirstMisfit.unique {i j : Nat} {err' : TypeError}
    (h : Γ.FirstMisfit name args params i err) (h' : Γ.FirstMisfit name args params j err') :
    err = err' := by
  rcases Nat.lt_trichotomy i j with hlt | rfl | hlt
  · exact absurd (h'.1 i hlt) h.2.not_fitsAt
  · exact h.2.unique h'.2
  · exact absurd (h.1 j hlt) h'.2.not_fitsAt

/-! ## The loop over the arguments -/

section Loop

variable {ret : ReturnTy} {k : Nat} {es : List Expr} {ts : List Ty}

/-- Once the next argument fits as well, all arguments up to it do. -/
theorem fitsAt_succ {a : Expr} {t : Ty} (hfits : ∀ j < k, Γ.FitsAt args params j)
    (ha : args[k]? = some a) (ht : params[k]? = some t) (hok : (Γ.infer a).result = .ok t) :
    ∀ j < k + 1, Γ.FitsAt args params j := by
  intro j hj
  rcases Nat.lt_succ_iff_lt_or_eq.mp hj with hlt | rfl
  · exact hfits j hlt
  · intro b expected hb hp
    rw [ha] at hb
    rw [ht] at hp
    cases hb
    cases hp
    exact hok

/-- **The first argument that does not fit ends the loop with its error, and if all fit, the result
is given back.** The loop stands at position `k`, and the arguments in front of it fit. -/
theorem inferArgs_cases (hes : args.drop k = es) (hts : params.drop k = ts)
    (hlen : es.length = ts.length) (hfits : ∀ j < k, Γ.FitsAt args params j) :
    (∃ i err, Γ.FirstMisfit name args params i err ∧
        (Γ.inferArgs name ret k es ts).result = .error err) ∨
      (∀ i, Γ.FitsAt args params i) ∧ (Γ.inferArgs name ret k es ts).result = .ok ret := by
  induction es generalizing k ts with
  | nil =>
    refine Or.inr ⟨fun i a expected ha hp => ?_, inferArgs_nil⟩
    -- there are no arguments from `k` on
    have hk : args.length ≤ k := List.drop_eq_nil_iff.mp hes
    obtain ⟨hi, -⟩ := List.getElem?_eq_some_iff.mp ha
    exact hfits i (Nat.lt_of_lt_of_le hi hk) a expected ha hp
  | cons a es ih =>
    cases ts with
    | nil => cases hlen
    | cons t ts =>
      have ha : args[k]? = some a := by
        rw [← List.head?_drop, hes, List.head?_cons]
      have ht : params[k]? = some t := by
        rw [← List.head?_drop, hts, List.head?_cons]
      have hes' : args.drop (k + 1) = es := by
        rw [← List.tail_drop, hes, List.tail_cons]
      have hts' : params.drop (k + 1) = ts := by
        rw [← List.tail_drop, hts, List.tail_cons]
      rw [inferArgs]
      cases hr : (Γ.infer a).result with
      | error e =>
        rw [Visit.andThen_error hr]
        exact Or.inl ⟨k, e, ⟨hfits, a, t, ha, ht, Or.inl hr⟩, rfl⟩
      | ok found =>
        rw [Visit.andThen_ok hr]
        by_cases hf : found = t
        · rw [if_pos hf]
          rw [hf] at hr
          exact ih hes' hts' (Nat.succ.inj hlen) (fitsAt_succ hfits ha ht hr)
        · rw [if_neg hf]
          exact Or.inl ⟨k, _, ⟨hfits, a, t, ha, ht, Or.inr ⟨found, hr, hf, rfl⟩⟩, rfl⟩

end Loop

/-! ## Verdicts on calls -/

theorem result_checkCall_of_unknown (h : Γ.signatures.find? name = none) :
    (Γ.checkCall name args).result = .error (.undeclaredFunction name) := by
  have hcallee : Γ.callee name args.length = .error (.undeclaredFunction name) := by
    rw [callee, h]
  rw [checkCall, hcallee, Visit.guarded_error]

section Known

variable {sig : Signature}

/-- Arguments that are too many or too few are not looked at. -/
theorem result_checkCall_of_length_ne (hf : Γ.signatures.find? name = some sig)
    (hne : sig.params.length ≠ args.length) :
    (Γ.checkCall name args).result =
      .error (.arityMismatch name sig.params.length args.length) := by
  have hcallee : Γ.callee name args.length =
      .error (.arityMismatch name sig.params.length args.length) := by
    rw [callee, hf]
    exact if_neg hne
  rw [checkCall, hcallee, Visit.guarded_error]

/-- **A call with the right number of arguments fails at the first one that does not fit, and gives
what the signature says if all fit.** -/
theorem checkCall_cases (hf : Γ.signatures.find? name = some sig)
    (hlen : sig.params.length = args.length) :
    (∃ i err, Γ.FirstMisfit name args sig.params i err ∧
        (Γ.checkCall name args).result = .error err) ∨
      (∀ i, Γ.FitsAt args sig.params i) ∧ (Γ.checkCall name args).result = .ok sig.ret := by
  rw [checkCall, callee_eq_ok_iff.mpr ⟨hf, hlen⟩, Visit.guarded_ok]
  exact inferArgs_cases (k := 0) rfl rfl hlen.symm fun j hj => absurd hj (Nat.not_lt_zero j)

theorem checkCall_eq_error_iff_firstMisfit (hf : Γ.signatures.find? name = some sig)
    (hlen : sig.params.length = args.length) :
    (Γ.checkCall name args).result = .error err ↔
      ∃ i, Γ.FirstMisfit name args sig.params i err := by
  rcases checkCall_cases hf hlen with ⟨i, err', hfirst, hr⟩ | ⟨hfits, hr⟩
  · rw [hr, Except.error.injEq]
    constructor
    · rintro rfl
      exact ⟨i, hfirst⟩
    · rintro ⟨j, hj⟩
      exact hfirst.unique hj
  · rw [hr]
    constructor
    · intro h
      cases h
    · rintro ⟨j, hj⟩
      exact absurd (hfits j) hj.2.not_fitsAt

theorem checkCall_eq_ok_iff_fitsAt {ret : ReturnTy} (hf : Γ.signatures.find? name = some sig)
    (hlen : sig.params.length = args.length) :
    (Γ.checkCall name args).result = .ok ret ↔
      ret = sig.ret ∧ ∀ i, Γ.FitsAt args sig.params i := by
  rcases checkCall_cases hf hlen with ⟨i, err', hfirst, hr⟩ | ⟨hfits, hr⟩
  · rw [hr]
    constructor
    · intro h
      cases h
    · rintro ⟨-, hfits⟩
      exact absurd (hfits i) hfirst.2.not_fitsAt
  · rw [hr, Except.ok.injEq]
    exact ⟨fun h => ⟨h.symm, hfits⟩, fun h => h.1.symm⟩

end Known

/-! ## Errors that arguments pass on -/

/-- Inference complains about an unknown function only if the function is unknown. -/
theorem unknown_of_infer_error {e : Expr}
    (h : (Γ.infer e).result = .error (.undeclaredFunction name)) :
    Γ.signatures.find? name = none := by
  obtain ⟨n, -, hfault⟩ := exists_fault_of_infer_error h
  cases hfault with
  | readElement _ hlacks | replacedElement _ hlacks => cases hlacks
  | call hcall =>
    cases hcall with
    | unknown hf => exact hf

/-- Inference complains about a number of arguments only if another one is asked for. -/
theorem ne_of_infer_error {e : Expr} {expected found : Nat}
    (h : (Γ.infer e).result = .error (.arityMismatch name expected found)) : expected ≠ found := by
  obtain ⟨n, -, hfault⟩ := exists_fault_of_infer_error h
  cases hfault with
  | readElement _ hlacks | replacedElement _ hlacks => cases hlacks
  | call hcall =>
    cases hcall with
    | arity _ hne => exact hne

theorem checkCall_eq_undeclaredFunction_iff :
    (Γ.checkCall name args).result = .error (.undeclaredFunction name) ↔
      Γ.signatures.find? name = none := by
  refine ⟨fun h => ?_, result_checkCall_of_unknown⟩
  cases hf : Γ.signatures.find? name with
  | none => rfl
  | some sig =>
    exfalso
    by_cases hlen : sig.params.length = args.length
    · obtain ⟨i, -, a, expected, -, -, ha | ⟨found, -, -, herr⟩⟩ :=
        (checkCall_eq_error_iff_firstMisfit hf hlen).mp h
      · rw [unknown_of_infer_error ha] at hf
        cases hf
      · cases herr
    · rw [result_checkCall_of_length_ne hf hlen] at h
      cases h

theorem checkCall_eq_arityMismatch_iff {sig : Signature}
    (hf : Γ.signatures.find? name = some sig) :
    (Γ.checkCall name args).result =
        .error (.arityMismatch name sig.params.length args.length) ↔
      sig.params.length ≠ args.length := by
  refine ⟨fun h hlen => ?_, result_checkCall_of_length_ne hf⟩
  obtain ⟨i, -, a, expected, -, -, ha | ⟨found, -, -, herr⟩⟩ :=
    (checkCall_eq_error_iff_firstMisfit hf hlen).mp h
  · exact ne_of_infer_error ha hlen
  · cases herr

/-! ## The two uses of a call -/

theorem infer_call_eq_error_iff {slot : Option Ty} :
    (Γ.infer (.call slot name args)).result = .error err ↔
      (Γ.checkCall name args).result = .error err ∨
        (Γ.checkCall name args).result = .ok .void ∧ err = .voidAsValue name := by
  rw [infer_call]
  simp only [Visit.andThen_eq_error_iff, Visit.result_settle, ReturnTy.asValue_eq_error_iff]
  refine or_congr_right ?_
  constructor
  · rintro ⟨ret, hr, rfl, rfl⟩
    exact ⟨hr, rfl⟩
  · rintro ⟨hr, rfl⟩
    exact ⟨_, hr, rfl, rfl⟩

/--
**A call has exactly one outcome, and its two uses agree on it.**

The function is unknown exactly if the call says so of it. If it is known, the call complains about
the number of its arguments exactly if that is another one than the number of parameters, whatever
the arguments are. If the numbers agree, the call fails exactly with the error of the first argument
that does not fit its parameter, and gives what the signature says exactly if all fit. As a
statement a call is accepted or refused as the call itself. As an expression it has the type that it
gives back, is refused if it gives back nothing, and fails with the error of the call otherwise.
-/
theorem checkCall_exact (Γ : Context) (name : String) (args : List Expr) :
    ((Γ.checkCall name args).result = .error (.undeclaredFunction name) ↔
      Γ.signatures.find? name = none) ∧
    (∀ sig, Γ.signatures.find? name = some sig →
      ((Γ.checkCall name args).result =
          .error (.arityMismatch name sig.params.length args.length) ↔
        sig.params.length ≠ args.length) ∧
      (sig.params.length = args.length →
        (∀ err, (Γ.checkCall name args).result = .error err ↔
          ∃ i, Γ.FirstMisfit name args sig.params i err) ∧
        ∀ ret, (Γ.checkCall name args).result = .ok ret ↔
          ret = sig.ret ∧ ∀ i, Γ.FitsAt args sig.params i)) ∧
    ((Γ.checkStmt (.call name args)).result = .ok () ↔
      ∃ ret, (Γ.checkCall name args).result = .ok ret) ∧
    (∀ err, (Γ.checkStmt (.call name args)).result = .error err ↔
      (Γ.checkCall name args).result = .error err) ∧
    ∀ slot,
      (∀ t, (Γ.infer (.call slot name args)).result = .ok t ↔
        (Γ.checkCall name args).result = .ok (.value t)) ∧
      ∀ err, (Γ.infer (.call slot name args)).result = .error err ↔
        (Γ.checkCall name args).result = .error err ∨
          (Γ.checkCall name args).result = .ok .void ∧ err = .voidAsValue name := by
  have hstmt : (Γ.checkStmt (.call name args)).result = Γ.headVerdict (.call name args) :=
    result_checkStmt_of_blocks_eq_nil rfl
  refine ⟨checkCall_eq_undeclaredFunction_iff, fun sig hf => ?_, ?_, fun err => ?_, fun slot => ?_⟩
  · exact ⟨checkCall_eq_arityMismatch_iff hf, fun hlen =>
      ⟨fun err => checkCall_eq_error_iff_firstMisfit hf hlen,
        fun ret => checkCall_eq_ok_iff_fitsAt hf hlen⟩⟩
  · rw [hstmt, headVerdict_call_eq_ok_iff]
  · rw [hstmt, headVerdict_call_eq_error_iff]
  · exact ⟨fun t => infer_call_eq_ok_iff, fun err => infer_call_eq_error_iff⟩

/-- A function `pick` and a procedure `log` may be called. -/
def pickContext : Context :=
  { signatures :=
      ⟨[("pick", ⟨[.bool, .int .w32], .value (.int .w32)⟩), ("log", ⟨[.int .w32], .void⟩)]⟩,
    scope := ⟨[], List.nodup_nil⟩ }

/-- The number seven. -/
def seven : Expr := .const none (.int .w32 7)

/-- The call `pick(7, 7)`, whose first argument is no truth value. -/
def wrongPick : Expr := .call none "pick" [seven, seven]

/-- In `pick(true, pick(7, 7))` it is the second argument that does not fit, with an error at the
first position of the call in it. In `pick(7)` no argument is looked at. The call `log(7)` may stand
as a statement only. -/
theorem wrongPick_exact :
    let args : List Expr := [.const none (.bool true), wrongPick]
    let err := TypeError.argumentMismatch "pick" 0 .bool (.int .w32)
    pickContext.FirstMisfit "pick" args [.bool, .int .w32] 1 err ∧
      (pickContext.checkCall "pick" args).result = .error err ∧
      (pickContext.checkCall "pick" [seven]).result = .error (.arityMismatch "pick" 2 1) ∧
      (pickContext.checkStmt (.call "log" [seven])).result = .ok () ∧
      (pickContext.infer (.call none "log" [seven])).result = .error (.voidAsValue "log") := by
  intro args err
  have hfirst : pickContext.FirstMisfit "pick" args [.bool, .int .w32] 1 err := by
    refine ⟨fun j hj a expected ha hp => ?_, wrongPick, .int .w32, rfl, rfl, Or.inl rfl⟩
    obtain rfl : j = 0 := Nat.lt_one_iff.mp hj
    cases ha
    cases hp
    rfl
  have hlog : (pickContext.checkCall "log" [seven]).result = .ok .void := rfl
  obtain ⟨-, -, hstmt, -, hexpr⟩ := checkCall_exact pickContext "log" [seven]
  refine ⟨hfirst, ?_, ?_, hstmt.mpr ⟨_, hlog⟩, ?_⟩
  · exact (((checkCall_exact pickContext "pick" args).2.1 _ rfl).2 rfl).1 err |>.mpr ⟨1, hfirst⟩
  · exact ((checkCall_exact pickContext "pick" [seven]).2.1 _ rfl).1.mpr (by decide)
  · exact ((hexpr none).2 _).mpr (Or.inr ⟨hlog, rfl⟩)

end BlockLang.Context
