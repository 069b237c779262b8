import BlockLang.Ident
import BlockLang.Signature

/-!
# Texts of types are unambiguous

Nothing is escaped in the text of a type, so a field name that contains a colon or a comma can make
two struct types look alike. Where all field names are of the form of names, this cannot happen:
**different types have different texts**, and so have different results and signatures
(`text_unambiguous`).

The statement by induction is about a text with anything behind it. If two texts agree as far as
they go, `t.write r = u.write s`, then they are texts of one type, and what is behind them agrees
(`write_inj`). Each kind of type is known by its first character, and whatever has no fixed length
is ended by a character that cannot stand in it: a number by `]`, a field name by `:`, a list of
items by a bracket that starts none of them.
-/

namespace BlockLang

/-! ## Words and numbers -/

/-- A word is known when a character behind it cannot stand in it. -/
theorem append_cons_inj {p : Char → Bool} {a b r s : List Char} {x y : Char}
    (ha : ∀ c ∈ a, p c = true) (hb : ∀ c ∈ b, p c = true) (hx : p x = false) (hy : p y = false)
    (h : a ++ x :: r = b ++ y :: s) : a = b ∧ x :: r = y :: s := by
  induction a generalizing b with
  | nil =>
    cases b with
    | nil => exact ⟨rfl, h⟩
    | cons d b =>
      obtain ⟨rfl, -⟩ := List.cons.inj h
      rw [hb x List.mem_cons_self] at hx
      cases hx
  | cons c a ih =>
    cases b with
    | nil =>
      obtain ⟨rfl, -⟩ := List.cons.inj h
      rw [ha c List.mem_cons_self] at hy
      cases hy
    | cons d b =>
      obtain ⟨rfl, htail⟩ := List.cons.inj h
      obtain ⟨rfl, hrest⟩ := ih (fun e he => ha e (List.mem_cons_of_mem c he))
        (fun e he => hb e (List.mem_cons_of_mem c he)) htail
      exact ⟨rfl, hrest⟩

theorem isDigit_of_mem_toDigits {n : Nat} {c : Char} (h : c ∈ Nat.toDigits 10 n) :
    c.isDigit = true :=
  Nat.isDigit_of_mem_toDigits (by decide) (by decide) h

/-- A number is known by its digits. -/
theorem toDigits_inj {m n : Nat} (h : Nat.toDigits 10 m = Nat.toDigits 10 n) : m = n :=
  calc
    m = Nat.ofDigitChars 10 (Nat.toDigits 10 m) 0 := Nat.ofDigitChars_ten_toDigits.symm
    _ = Nat.ofDigitChars 10 (Nat.toDigits 10 n) 0 := by rw [h]
    _ = n := Nat.ofDigitChars_ten_toDigits

/-- A number is known when no digit is behind it. -/
theorem writeNat_inj {m n : Nat} {r s : List Char} {x y : Char} (hx : x.isDigit = false)
    (hy : y.isDigit = false) (h : writeNat m (x :: r) = writeNat n (y :: s)) :
    m = n ∧ x :: r = y :: s := by
  obtain ⟨hdigits, hrest⟩ := append_cons_inj (fun _ => isDigit_of_mem_toDigits)
    (fun _ => isDigit_of_mem_toDigits) hx hy h
  exact ⟨toDigits_inj hdigits, hrest⟩

/-- The digits of the number of bits. -/
def IntWidth.digits : IntWidth → List Char
  | w8 => ['8']
  | w16 => ['1', '6']
  | w32 => ['3', '2']
  | w64 => ['6', '4']

/-- The digits of the number of bits. -/
def FloatWidth.digits : FloatWidth → List Char
  | w32 => ['3', '2']
  | w64 => ['6', '4']

theorem IntWidth.toDigits_bits (w : IntWidth) : Nat.toDigits 10 w.bits = w.digits := by
  cases w <;> rfl

theorem FloatWidth.toDigits_bits (w : FloatWidth) : Nat.toDigits 10 w.bits = w.digits := by
  cases w <;> rfl

/-- Numbers of bits differ in their first digit, so they need nothing behind them. -/
theorem IntWidth.writeNat_bits_inj {v w : IntWidth} {r s : List Char}
    (h : writeNat v.bits r = writeNat w.bits s) : v = w ∧ r = s := by
  rw [writeNat, writeNat, toDigits_bits, toDigits_bits] at h
  cases v <;> cases w <;> simp_all [digits]

theorem FloatWidth.writeNat_bits_inj {v w : FloatWidth} {r s : List Char}
    (h : writeNat v.bits r = writeNat w.bits s) : v = w ∧ r = s := by
  rw [writeNat, writeNat, toDigits_bits, toDigits_bits] at h
  cases v <;> cases w <;> simp_all [digits]

/-! ## Items with commas between them -/

/-- Items with commas between them, followed by `rest`. -/
def writeItems {α : Type} (item : α → List Char → List Char) : List α → List Char → List Char
  | [], rest => rest
  | [x], rest => item x rest
  | x :: y :: xs, rest => item x (',' :: ' ' :: writeItems item (y :: xs) rest)

section Items

variable {α : Type} {item : α → List Char → List Char} {close : Char}

/-- A list that is not empty starts with its first item. -/
theorem exists_writeItems_cons (item : α → List Char → List Char) (x : α) (xs : List α)
    (rest : List Char) : ∃ behind, writeItems item (x :: xs) rest = item x behind := by
  cases xs with
  | nil => exact ⟨_, rfl⟩
  | cons y ys => exact ⟨_, rfl⟩

/-- **A list of items is known if its items are, and if no item starts as the end of the list.** -/
theorem writeItems_inj {xs ys : List α} {r s : List Char} (hclose : close ≠ ',')
    (hitem : ∀ x ∈ xs, ∀ y ∈ ys, ∀ r s, item x r = item y s → x = y ∧ r = s)
    (hxs : ∀ x ∈ xs, ∀ r s, item x r ≠ close :: s) (hys : ∀ y ∈ ys, ∀ r s, item y r ≠ close :: s)
    (h : writeItems item xs (close :: r) = writeItems item ys (close :: s)) :
    xs = ys ∧ r = s := by
  induction xs generalizing ys with
  | nil =>
    cases ys with
    | nil => exact ⟨rfl, (List.cons.inj h).2⟩
    | cons y ys =>
      obtain ⟨behind, hy⟩ := exists_writeItems_cons item y ys (close :: s)
      exact absurd (hy.symm.trans h.symm) (hys y List.mem_cons_self _ _)
  | cons x xs ih =>
    cases ys with
    | nil =>
      obtain ⟨behind, hx⟩ := exists_writeItems_cons item x xs (close :: r)
      exact absurd (hx.symm.trans h) (hxs x List.mem_cons_self _ _)
    | cons y ys =>
      have hhead := hitem x List.mem_cons_self y List.mem_cons_self
      -- behind the first items, a comma or the end of the list
      cases xs with
      | nil =>
        cases ys with
        | nil =>
          obtain ⟨rfl, hrest⟩ := hhead _ _ h
          exact ⟨rfl, (List.cons.inj hrest).2⟩
        | cons z zs => exact absurd (List.cons.inj (hhead _ _ h).2).1 hclose
      | cons w ws =>
        cases ys with
        | nil => exact absurd (List.cons.inj (hhead _ _ h).2).1.symm hclose
        | cons z zs =>
          obtain ⟨rfl, hrest⟩ := hhead _ _ h
          obtain ⟨-, hrest⟩ := List.cons.inj hrest
          obtain ⟨-, hrest⟩ := List.cons.inj hrest
          obtain ⟨htail, hrs⟩ := ih
            (fun a ha b hb => hitem a (List.mem_cons_of_mem x ha) b (List.mem_cons_of_mem x hb))
            (fun a ha => hxs a (List.mem_cons_of_mem x ha))
            (fun b hb => hys b (List.mem_cons_of_mem x hb)) hrest
          exact ⟨by rw [htail], hrs⟩

end Items

namespace Ty

/-! ## Types inside a type -/

/-- The types directly inside a type. -/
def inner : Ty → List Ty
  | array t _ => [t]
  | struct fields => fields.map Prod.snd
  | pointer t => [t]
  | _ => []

mutual

/-- What passes from the types inside a type to the type holds of every type. -/
theorem induction_inner {P : Ty → Prop} (step : ∀ t, (∀ u ∈ t.inner, P u) → P t) : (t : Ty) → P t
  | bool => step _ (by simp [inner])
  | int w => step _ (by simp [inner])
  | float w => step _ (by simp [inner])
  | array t n => step _ (by simpa [inner] using induction_inner step t)
  | struct fields => step _ (induction_inner_fields step fields)
  | pointer t => step _ (by simpa [inner] using induction_inner step t)

theorem induction_inner_fields {P : Ty → Prop} (step : ∀ t, (∀ u ∈ t.inner, P u) → P t) :
    (fields : List (String × Ty)) → ∀ u ∈ fields.map Prod.snd, P u
  | [], u, h => absurd h List.not_mem_nil
  | (n, t) :: fields, u, h => by
    rcases List.mem_cons.mp h with h | h
    · rw [h]
      exact induction_inner step t
    · exact induction_inner_fields step fields u h

end

/-- The name belongs to a field of a struct in the type, at any depth. -/
inductive HasFieldName : Ty → String → Prop
  | here {fields : List (String × Ty)} {name : String} {t : Ty} :
      (name, t) ∈ fields → HasFieldName (.struct fields) name
  | inside {t u : Ty} {name : String} : u ∈ t.inner → HasFieldName u name → HasFieldName t name

/-- All field names in the type are of the form of names. -/
def WellNamed (t : Ty) : Prop := ∀ name, t.HasFieldName name → Ident.isValid name = true

variable {t u : Ty} {fields : List (String × Ty)} {r s : List Char}

theorem WellNamed.inner (h : t.WellNamed) (hu : u ∈ t.inner) : u.WellNamed :=
  fun name hname => h name (.inside hu hname)

/-! ## The text of a type -/

/-- The first character of the text of a type. -/
def initial : Ty → Char
  | bool => 'B'
  | int _ => 'I'
  | float _ => 'F'
  | array _ _ => '['
  | struct _ => '\x7b'
  | pointer _ => '*'

theorem exists_write_cons (t : Ty) (rest : List Char) :
    ∃ behind, t.write rest = t.initial :: behind := by
  cases t <;> exact ⟨_, rfl⟩

/-- The first character tells the kind of a type. -/
theorem initial_eq_of_write (h : t.write r = u.write s) : t.initial = u.initial := by
  obtain ⟨behind, ht⟩ := exists_write_cons t r
  obtain ⟨behind', hu⟩ := exists_write_cons u s
  rw [ht, hu] at h
  exact (List.cons.inj h).1

/-- No text of a type starts with a round bracket. -/
theorem write_ne_paren {c : Char} (hc : c = '(' ∨ c = ')') : t.write r ≠ c :: s := by
  intro h
  obtain ⟨behind, ht⟩ := exists_write_cons t r
  have hinitial : t.initial = c := (List.cons.inj (ht.symm.trans h)).1
  rcases hc with rfl | rfl
  · cases t <;> simp [initial] at hinitial
  · cases t <;> simp [initial] at hinitial

/-- A field, followed by `rest`. -/
def writeField (field : String × Ty) (rest : List Char) : List Char :=
  field.1.toList ++ ':' :: ' ' :: field.2.write rest

theorem writeFields_eq (fields : List (String × Ty)) (rest : List Char) :
    writeFields fields rest = writeItems writeField fields rest := by
  induction fields with
  | nil => rfl
  | cons field fields ih =>
    cases fields with
    | nil => rfl
    | cons g gs => rw [writeFields, ih, writeItems, writeField]

theorem writeList_eq (ts : List Ty) (rest : List Char) :
    writeList ts rest = writeItems write ts rest := by
  induction ts with
  | nil => rfl
  | cons t ts ih =>
    cases ts with
    | nil => rfl
    | cons u us => rw [writeList, ih, writeItems]

/-- A field is known by its name and its type. -/
theorem writeField_inj {f g : String × Ty} (hf : Ident.isValid f.1 = true)
    (hg : Ident.isValid g.1 = true)
    (hty : ∀ r s, f.2.write r = g.2.write s → f.2 = g.2 ∧ r = s)
    (h : writeField f r = writeField g s) : f = g ∧ r = s := by
  obtain ⟨c, cs, hname, hcs⟩ := Ident.exists_cons_of_isValid hf
  obtain ⟨d, ds, hname', hds⟩ := Ident.exists_cons_of_isValid hg
  obtain ⟨hnames, hrest⟩ := append_cons_inj (hname ▸ hcs) (hname' ▸ hds) (by decide) (by decide) h
  obtain ⟨-, hrest⟩ := List.cons.inj hrest
  obtain ⟨-, hrest⟩ := List.cons.inj hrest
  obtain ⟨htypes, hrs⟩ := hty r s hrest
  exact ⟨Prod.ext (String.toList_inj.mp hnames) htypes, hrs⟩

/-- A field does not start as a list of fields ends. -/
theorem writeField_ne_close {f : String × Ty} (hf : Ident.isValid f.1 = true) :
    writeField f r ≠ '\x7d' :: s := by
  intro h
  obtain ⟨c, cs, hname, hcs⟩ := Ident.exists_cons_of_isValid hf
  rw [writeField, hname] at h
  obtain ⟨rfl, -⟩ := List.cons.inj h
  exact absurd (hcs _ List.mem_cons_self) (by decide)

theorem WellNamed.field (h : (Ty.struct fields).WellNamed) {f : String × Ty} (hf : f ∈ fields) :
    Ident.isValid f.1 = true ∧ f.2.WellNamed :=
  ⟨h f.1 (.here hf), h.inner (List.mem_map_of_mem hf)⟩

/-- **A well-named type is known by its text, whatever is behind it.** -/
theorem write_inj (ht : t.WellNamed) (hu : u.WellNamed) (h : t.write r = u.write s) :
    t = u ∧ r = s := by
  induction t using induction_inner generalizing u r s with
  | step t ih =>
    have hinitial := initial_eq_of_write h
    cases t with
    | bool =>
      cases u with
      | bool => exact ⟨rfl, List.append_cancel_left h⟩
      | _ => exact absurd hinitial (by simp [initial])
    | int w =>
      cases u with
      | int w' =>
        obtain ⟨rfl, hrs⟩ := IntWidth.writeNat_bits_inj (List.append_cancel_left h)
        exact ⟨rfl, hrs⟩
      | _ => exact absurd hinitial (by simp [initial])
    | float w =>
      cases u with
      | float w' =>
        obtain ⟨rfl, hrs⟩ := FloatWidth.writeNat_bits_inj (List.append_cancel_left h)
        exact ⟨rfl, hrs⟩
      | _ => exact absurd hinitial (by simp [initial])
    | array e n =>
      cases u with
      | array e' n' =>
        have hmem : e ∈ (Ty.array e n).inner := List.mem_singleton_self e
        have hmem' : e' ∈ (Ty.array e' n').inner := List.mem_singleton_self e'
        obtain ⟨rfl, hrest⟩ := ih e hmem (ht.inner hmem) (hu.inner hmem') (List.cons.inj h).2
        -- the semicolon and the blank behind the element, then the length
        obtain ⟨-, hrest⟩ := List.cons.inj hrest
        obtain ⟨-, hrest⟩ := List.cons.inj hrest
        obtain ⟨rfl, hbehind⟩ := writeNat_inj (by decide) (by decide) hrest
        exact ⟨rfl, (List.cons.inj hbehind).2⟩
      | _ => exact absurd hinitial (by simp [initial])
    | struct fields =>
      cases u with
      | struct fields' =>
        have hfields := (List.cons.inj h).2
        rw [writeFields_eq, writeFields_eq] at hfields
        obtain ⟨rfl, hrs⟩ := writeItems_inj (by decide)
          (fun f hf g hg r s => writeField_inj (ht.field hf).1 (hu.field hg).1
            fun r s => ih f.2 (List.mem_map_of_mem hf) (ht.field hf).2 (hu.field hg).2)
          (fun f hf r s => writeField_ne_close (ht.field hf).1)
          (fun g hg r s => writeField_ne_close (hu.field hg).1) hfields
        exact ⟨rfl, hrs⟩
      | _ => exact absurd hinitial (by simp [initial])
    | pointer e =>
      cases u with
      | pointer e' =>
        have hmem : e ∈ (Ty.pointer e).inner := List.mem_singleton_self e
        have hmem' : e' ∈ (Ty.pointer e').inner := List.mem_singleton_self e'
        obtain ⟨rfl, hrs⟩ := ih e hmem (ht.inner hmem) (hu.inner hmem') (List.cons.inj h).2
        exact ⟨rfl, hrs⟩
      | _ => exact absurd hinitial (by simp [initial])

end Ty

/-! ## Results and signatures -/

namespace ReturnTy

/-- The name belongs to a field of a struct in the type of the result, at any depth. -/
def HasFieldName (ret : ReturnTy) (name : String) : Prop :=
  ∃ t, ret = .value t ∧ t.HasFieldName name

/-- All field names in the result are of the form of names. -/
def WellNamed (ret : ReturnTy) : Prop := ∀ name, ret.HasFieldName name → Ident.isValid name = true

theorem WellNamed.type {t : Ty} (h : (ReturnTy.value t).WellNamed) : t.WellNamed :=
  fun name hname => h name ⟨t, rfl, hname⟩

/-- **A well-named result is known by its text, whatever is behind it.** -/
theorem write_inj {p q : ReturnTy} {r s : List Char} (hp : p.WellNamed) (hq : q.WellNamed)
    (h : p.write r = q.write s) : p = q ∧ r = s := by
  cases p with
  | void =>
    cases q with
    | void => exact ⟨rfl, (List.cons.inj (List.cons.inj h).2).2⟩
    | value u => exact absurd h.symm (Ty.write_ne_paren (Or.inl rfl))
  | value t =>
    cases q with
    | void => exact absurd h (Ty.write_ne_paren (Or.inl rfl))
    | value u =>
      obtain ⟨rfl, hrs⟩ := Ty.write_inj hp.type hq.type h
      exact ⟨rfl, hrs⟩

end ReturnTy

namespace Signature

/-- The name belongs to a field of a struct in a parameter or in the result, at any depth. -/
def HasFieldName (sig : Signature) (name : String) : Prop :=
  (∃ t ∈ sig.params, t.HasFieldName name) ∨ sig.ret.HasFieldName name

/-- All field names in the signature are of the form of names. -/
def WellNamed (sig : Signature) : Prop := ∀ name, sig.HasFieldName name → Ident.isValid name = true

theorem WellNamed.param {sig : Signature} (h : sig.WellNamed) {t : Ty} (ht : t ∈ sig.params) :
    t.WellNamed :=
  fun name hname => h name (Or.inl ⟨t, ht, hname⟩)

theorem WellNamed.result {sig : Signature} (h : sig.WellNamed) : sig.ret.WellNamed :=
  fun name hname => h name (Or.inr hname)

/-- **A well-named signature is known by its text, whatever is behind it.** -/
theorem write_inj {a b : Signature} {r s : List Char} (ha : a.WellNamed) (hb : b.WellNamed)
    (h : a.write r = b.write s) : a = b ∧ r = s := by
  obtain ⟨params, ret⟩ := a
  obtain ⟨params', ret'⟩ := b
  have hparams := (List.cons.inj h).2
  rw [Ty.writeList_eq, Ty.writeList_eq] at hparams
  obtain ⟨rfl, hbehind⟩ := writeItems_inj (by decide)
    (fun t ht u hu r s => Ty.write_inj (ha.param ht) (hb.param hu))
    (fun t _ r s => Ty.write_ne_paren (Or.inr rfl))
    (fun u _ r s => Ty.write_ne_paren (Or.inr rfl)) hparams
  have harrow : " -> ".toList ++ ret.write r = " -> ".toList ++ ret'.write s := hbehind
  obtain ⟨rfl, hrs⟩ := ReturnTy.write_inj ha.result hb.result (List.append_cancel_left harrow)
  exact ⟨rfl, hrs⟩

end Signature

/-! ## Different types have different texts -/

theorem Ty.text_inj {t u : Ty} (ht : t.WellNamed) (hu : u.WellNamed) (h : t.text = u.text) :
    t = u :=
  (write_inj ht hu (String.ofList_injective h)).1

/--
**Texts are unambiguous up to field names.**

If different types have one text, then one of them has a field name that is not of the form of a
name. So the text is one-to-one on types without such field names, and also on results and
signatures without them. The text of no result is the text of no type at all.
-/
theorem text_unambiguous :
    (∀ t u : Ty, t ≠ u → t.text = u.text →
      ∃ name, (t.HasFieldName name ∨ u.HasFieldName name) ∧ Ident.isValid name = false) ∧
      (∀ t u : Ty, t.WellNamed → u.WellNamed → t.text = u.text → t = u) ∧
      (∀ t : Ty, t.text ≠ ReturnTy.void.text) ∧
      (∀ p q : ReturnTy, p.WellNamed → q.WellNamed → p.text = q.text → p = q) ∧
      ∀ a b : Signature, a.WellNamed → b.WellNamed → a.text = b.text → a = b := by
  refine ⟨?_, fun t u ht hu => Ty.text_inj ht hu, ?_, ?_, ?_⟩
  · intro t u hne htext
    by_cases hbad : ∃ name, (t.HasFieldName name ∨ u.HasFieldName name) ∧ Ident.isValid name = false
    · exact hbad
    · have hvalid : ∀ name, t.HasFieldName name ∨ u.HasFieldName name →
          Ident.isValid name = true := by
        intro name hname
        cases hv : Ident.isValid name with
        | true => rfl
        | false => exact absurd ⟨name, hname, hv⟩ hbad
      exact absurd (Ty.text_inj (fun name h => hvalid name (Or.inl h))
        (fun name h => hvalid name (Or.inr h)) htext) hne
  · intro t htext
    exact Ty.write_ne_paren (Or.inl rfl) (String.ofList_injective htext)
  · intro p q hp hq htext
    exact (ReturnTy.write_inj hp hq (String.ofList_injective htext)).1
  · intro a b ha hb htext
    exact (Signature.write_inj ha hb (String.ofList_injective htext)).1

/-- Two fields. -/
def twoFields : Ty := .struct [("a", .bool), ("b", .pointer .bool)]

/-- One field with a name that reads like a field and the name of another. -/
def feignedField : Ty := .struct [("a: Bool, b", .pointer .bool)]

/-- The two types have one text, so one of them has a field name that is not of the form of a name.
Signatures without field names differ in their texts as soon as lengths do, even where the digits
are the same all in all. -/
theorem feignedField_text_unambiguous :
    twoFields ≠ feignedField ∧ twoFields.text = feignedField.text ∧
      (∃ name, (twoFields.HasFieldName name ∨ feignedField.HasFieldName name) ∧
        Ident.isValid name = false) ∧
      (Signature.mk [.array .bool 1, .array .bool 12] .void).text ≠
        (Signature.mk [.array .bool 11, .array .bool 2] .void).text := by
  have hne : twoFields ≠ feignedField := by decide
  have htext : twoFields.text = feignedField.text := rfl
  have harray : ∀ n, (Ty.array .bool n).WellNamed := by
    rintro n name (_ | ⟨hu, hname⟩)
    cases List.mem_singleton.mp hu
    rcases hname with _ | ⟨hu, -⟩
    cases hu
  have hnames : ∀ m n, (Signature.mk [.array .bool m, .array .bool n] .void).WellNamed := by
    rintro m n name (⟨t, ht, hname⟩ | ⟨t, hvoid, -⟩)
    · have hwell : ∀ u ∈ [Ty.array .bool m, .array .bool n], u.WellNamed := by simp [harray]
      exact hwell t ht name hname
    · cases hvoid
  refine ⟨hne, htext, text_unambiguous.1 _ _ hne htext, fun h => ?_⟩
  have hsame := text_unambiguous.2.2.2.2 _ _ (hnames 1 12) (hnames 11 2) h
  exact absurd hsame (by decide)

end BlockLang
