import BlockLang.Text

/-!
# What reading a byte accepts

Two small readers are described by what they accept and not by how they go through a text.

* `Blank.trim_eq_iff` — trimming gives the one text that stands between white space and neither
  starts nor ends with it;
* `Byte.read_eq_some_iff` — a byte is read from a decimal number of any length, with a plus sign or
  without, exactly when the number is at most 255. The reader gives up in the middle of a text that
  is too large; this loses nothing, because more digits never make a number smaller
  (`Byte.le_ofDigitChars`). In particular nothing wraps around;
* `Byte.writes_iff_of_lt_ten` — the texts of a number below ten are its digit behind zeros.
-/

namespace BlockLang

/-! ## Blanks at the ends -/

namespace Blank

/-- A character with the property `White_Space`, by its code point. -/
def IsWhiteSpace (c : Char) : Prop :=
  c.toNat ∈ [0x09, 0x0A, 0x0B, 0x0C, 0x0D, 0x20, 0x85, 0xA0, 0x1680, 0x2000, 0x2001, 0x2002, 0x2003,
    0x2004, 0x2005, 0x2006, 0x2007, 0x2008, 0x2009, 0x200A, 0x2028, 0x2029, 0x202F, 0x205F, 0x3000]

/-- What is left of a text without the white space at its ends: it stands between white space, and
neither starts nor ends with it. -/
def Stripped (cs core : List Char) : Prop :=
  ∃ before after, cs = before ++ core ++ after ∧
    (∀ c ∈ before, IsWhiteSpace c) ∧ (∀ c ∈ after, IsWhiteSpace c) ∧
    (∀ c, core.head? = some c → ¬ IsWhiteSpace c) ∧
    ∀ c, core.getLast? = some c → ¬ IsWhiteSpace c

variable {c : Char} {cs rest core : List Char}

/-- The ranges of blanks are the code points one by one. -/
theorem isBlank_iff : isBlank c = true ↔ IsWhiteSpace c := by
  simp only [isBlank, ranges, IsWhiteSpace, List.any_cons, List.any_nil, Bool.or_false,
    Bool.or_eq_true, Bool.and_eq_true, decide_eq_true_eq, List.mem_cons, List.not_mem_nil, or_false]
  omega

theorem trimLeft_eq_iff : trimLeft cs = rest ↔
    ∃ before, cs = before ++ rest ∧ (∀ c ∈ before, isBlank c = true) ∧
      ∀ c, rest.head? = some c → isBlank c = false := by
  constructor
  · rintro rfl
    refine ⟨cs.takeWhile isBlank, List.takeWhile_append_dropWhile.symm,
      List.all_eq_true.mp List.all_takeWhile, fun c hc => ?_⟩
    have hstop := List.head?_dropWhile_not isBlank cs
    rw [show (cs.dropWhile isBlank).head? = some c from hc] at hstop
    exact hstop
  · rintro ⟨before, rfl, hbefore, hhead⟩
    rw [trimLeft, List.dropWhile_append_of_pos hbefore]
    cases rest with
    | nil => rfl
    | cons c rest => exact List.dropWhile_cons_of_neg (by simp [hhead c rfl])

theorem trimRight_eq_iff : trimRight cs = rest ↔
    ∃ after, cs = rest ++ after ∧ (∀ c ∈ after, isBlank c = true) ∧
      ∀ c, rest.getLast? = some c → isBlank c = false := by
  have hmirror : trimRight cs = (trimLeft cs.reverse).reverse := rfl
  rw [hmirror, List.reverse_eq_iff, trimLeft_eq_iff]
  constructor
  · rintro ⟨before, hcs, hbefore, hhead⟩
    refine ⟨before.reverse, ?_, by simpa using hbefore, by simpa using hhead⟩
    rw [← List.reverse_inj, hcs, List.reverse_append, List.reverse_reverse]
  · rintro ⟨after, rfl, hafter, hlast⟩
    exact ⟨after.reverse, List.reverse_append, by simpa using hafter, by simpa using hlast⟩

/-- **Trimming takes away the white space at the ends, and nothing else.** -/
theorem trim_eq_iff : trim cs = core ↔ Stripped cs core := by
  rw [trim, trimRight_eq_iff]
  simp only [Stripped, ← isBlank_iff, Bool.not_eq_true]
  constructor
  · rintro ⟨after, hleft, hafter, hlast⟩
    obtain ⟨before, hcs, hbefore, hhead⟩ := trimLeft_eq_iff.mp hleft
    refine ⟨before, after, by rw [hcs, List.append_assoc], hbefore, hafter, ?_, hlast⟩
    intro c hc
    exact hhead c (by rw [List.head?_append, hc]; rfl)
  · rintro ⟨before, after, rfl, hbefore, hafter, hhead, hlast⟩
    cases core with
    | nil =>
      -- only blanks: trimming from the left takes all of them
      refine ⟨[], trimLeft_eq_iff.mpr ⟨before ++ after, by simp, ?_, by simp⟩, by simp, by simp⟩
      intro c hc
      exact (List.mem_append.mp hc).elim (hbefore c) (hafter c)
    | cons d core =>
      refine ⟨after, trimLeft_eq_iff.mpr ⟨before, List.append_assoc .., hbefore, ?_⟩, hafter, hlast⟩
      intro c hc
      exact hhead c hc

end Blank

/-! ## Decimal numbers within a byte -/

namespace Byte

/-- The text is the number in decimal: at most one plus sign, and then one or more ASCII digits. -/
def Writes (cs : List Char) (n : Nat) : Prop :=
  ∃ sign digits, cs = sign ++ digits ∧ (sign = [] ∨ sign = ['+']) ∧ digits ≠ [] ∧
    (∀ c ∈ digits, c.isDigit = true) ∧ Nat.ofDigitChars 10 digits 0 = n

variable {cs digits : List Char} {value n d : Nat} {c : Char}

/-- Digits behind a number do not make it smaller. -/
theorem le_ofDigitChars (cs : List Char) (value : Nat) : value ≤ Nat.ofDigitChars 10 cs value := by
  rw [Nat.ofDigitChars_eq_ofDigitChars_zero]
  have hpow : 0 < 10 ^ cs.length := Nat.pow_pos (by decide)
  have hmul : value ≤ 10 ^ cs.length * value := Nat.le_mul_of_pos_left value hpow
  omega

/-- **Digits are read as the number that they give, if it is at most 255.** -/
theorem readDigits_eq_some_iff (hv : value ≤ 255) : readDigits value cs = some n ↔
    (∀ c ∈ cs, c.isDigit = true) ∧ Nat.ofDigitChars 10 cs value = n ∧ n ≤ 255 := by
  induction cs generalizing value with
  | nil =>
    rw [readDigits, Nat.ofDigitChars_nil, Option.some.injEq]
    constructor
    · rintro rfl
      exact ⟨by simp, rfl, hv⟩
    · rintro ⟨-, rfl, -⟩
      rfl
  | cons c cs ih =>
    rw [readDigits, Nat.ofDigitChars_cons, Nat.mul_comm 10 value, List.forall_mem_cons]
    by_cases hc : c.isDigit = true
    · by_cases hnext : value * 10 + (c.toNat - '0'.toNat) ≤ 255
      · rw [if_pos hc, if_pos hnext, ih hnext]
        simp [hc]
      · -- too large already, and so is the whole number
        have hle := le_ofDigitChars cs (value * 10 + (c.toNat - '0'.toNat))
        rw [if_pos hc, if_neg hnext]
        simp only [reduceCtorEq, false_iff, not_and]
        intro _ hn
        omega
    · simp [hc]

theorem readUnsigned_eq_some_iff : readUnsigned cs = some n ↔
    cs ≠ [] ∧ (∀ c ∈ cs, c.isDigit = true) ∧ Nat.ofDigitChars 10 cs 0 = n ∧ n ≤ 255 := by
  cases cs with
  | nil => simp [readUnsigned]
  | cons c cs =>
    rw [readUnsigned, readDigits_eq_some_iff (Nat.zero_le 255)]
    simp

theorem read_cons_of_ne_plus (hc : c ≠ '+') : read (c :: cs) = readUnsigned (c :: cs) := by
  unfold read
  split
  · next heq => exact absurd (List.cons.inj heq).1 hc
  · rfl

/-- **A byte is read from a decimal number exactly when the number is at most 255.** -/
theorem read_eq_some_iff : read cs = some n ↔ Writes cs n ∧ n ≤ 255 := by
  constructor
  · intro h
    unfold read at h
    split at h
    · obtain ⟨hne, hdigits, hn, hle⟩ := readUnsigned_eq_some_iff.mp h
      exact ⟨⟨['+'], _, rfl, Or.inr rfl, hne, hdigits, hn⟩, hle⟩
    · obtain ⟨hne, hdigits, hn, hle⟩ := readUnsigned_eq_some_iff.mp h
      exact ⟨⟨[], _, rfl, Or.inl rfl, hne, hdigits, hn⟩, hle⟩
  · rintro ⟨⟨sign, digits, rfl, hsign, hne, hdigits, hn⟩, hle⟩
    have hread := readUnsigned_eq_some_iff.mpr ⟨hne, hdigits, hn, hle⟩
    rcases hsign with rfl | rfl
    · obtain ⟨c, digits, rfl⟩ := List.exists_cons_of_ne_nil hne
      have hplus : c ≠ '+' := by
        rintro rfl
        exact absurd (hdigits '+' List.mem_cons_self) (by decide)
      rwa [List.nil_append, read_cons_of_ne_plus hplus]
    · exact hread

/-! ## Numbers of one digit -/

theorem digitChar_of_isDigit (hc : c.isDigit = true) : Nat.digitChar (c.toNat - '0'.toNat) = c := by
  obtain ⟨hlow, hhigh⟩ := Char.isDigit_iff_toNat.mp hc
  have h0 : '0'.toNat = 48 := rfl
  have h9 : '9'.toNat = 57 := rfl
  apply Char.toNat_inj.mp
  rw [Nat.toNat_digitChar_of_lt_ten (by omega)]
  omega

/-- Only zeros give zero. -/
theorem eq_zero_of_ofDigitChars_eq_zero (hdigits : ∀ c ∈ digits, c.isDigit = true)
    (h : Nat.ofDigitChars 10 digits 0 = 0) : ∀ c ∈ digits, c = '0' := by
  induction digits with
  | nil => simp
  | cons c digits ih =>
    rw [Nat.ofDigitChars_cons, Nat.mul_zero, Nat.zero_add] at h
    have hc : c.toNat - '0'.toNat = 0 := by
      have hle := le_ofDigitChars digits (c.toNat - '0'.toNat)
      omega
    have hzero : c = '0' := by
      rw [← digitChar_of_isDigit (hdigits c List.mem_cons_self), hc]
      rfl
    rw [hc] at h
    have hrest := ih (fun e he => hdigits e (List.mem_cons_of_mem c he)) h
    exact List.forall_mem_cons.mpr ⟨hzero, hrest⟩

/-- Digits that give a number below ten are its own digit behind zeros. -/
theorem ofDigitChars_eq_iff_of_lt_ten (hd : d < 10) :
    (digits ≠ [] ∧ (∀ c ∈ digits, c.isDigit = true) ∧ Nat.ofDigitChars 10 digits 0 = d) ↔
      ∃ zeros, digits = List.replicate zeros '0' ++ [Nat.digitChar d] := by
  constructor
  · rintro ⟨hne, hdigits, hvalue⟩
    obtain ⟨front, c, hconcat⟩ := (List.eq_nil_or_concat digits).resolve_left hne
    rw [List.concat_eq_append] at hconcat
    subst hconcat
    rw [Nat.ofDigitChars_append, Nat.ofDigitChars_cons, Nat.ofDigitChars_nil] at hvalue
    -- whatever stands in front counts ten times
    have hfront : Nat.ofDigitChars 10 front 0 = 0 := by omega
    have hlast : c.toNat - '0'.toNat = d := by omega
    have hc := digitChar_of_isDigit (hdigits c (by simp))
    have hzeros := eq_zero_of_ofDigitChars_eq_zero
      (fun e he => hdigits e (List.mem_append_left _ he)) hfront
    exact ⟨front.length, by rw [← List.eq_replicate_of_mem hzeros, ← hlast, hc]⟩
  · rintro ⟨zeros, rfl⟩
    refine ⟨by simp, ?_, ?_⟩
    · intro c hc
      rcases List.mem_append.mp hc with hc | hc
      · rw [List.eq_of_mem_replicate hc]
        rfl
      · rw [List.mem_singleton.mp hc, Nat.isDigit_digitChar]
        exact decide_eq_true hd
    · rw [Nat.ofDigitChars_append, Nat.ofDigitChars_replicate_zero,
        Nat.ofDigitChars_cons_digitChar_of_lt_ten hd, Nat.ofDigitChars_nil, Nat.mul_zero,
        Nat.mul_zero, Nat.zero_add]

/-- **A number below ten is written as its digit, behind zeros and at most one plus sign.** -/
theorem writes_iff_of_lt_ten (hd : d < 10) : Writes cs d ↔
    ∃ sign zeros, cs = sign ++ (List.replicate zeros '0' ++ [Nat.digitChar d]) ∧
      (sign = [] ∨ sign = ['+']) := by
  constructor
  · rintro ⟨sign, digits, rfl, hsign, hdigits⟩
    obtain ⟨zeros, rfl⟩ := (ofDigitChars_eq_iff_of_lt_ten hd).mp hdigits
    exact ⟨sign, zeros, rfl, hsign⟩
  · rintro ⟨sign, zeros, rfl, hsign⟩
    exact ⟨sign, _, rfl, hsign, (ofDigitChars_eq_iff_of_lt_ten hd).mpr ⟨zeros, rfl⟩⟩

end Byte

end BlockLang
