import BlockLang.Options.Basic
import BlockLang.Proofs.Text.Reading

/-!
# Which texts give a level

A level is asked for by its number, and the number may be any text that reads as a byte between
blanks. `OptLevel.Written` says the same as a form of texts: blanks, at most one plus sign, zeros,
one of the digits `0` to `3`, blanks. The two agree (`OptLevel.read_eq_some_iff`), since a number
below four is its digit behind zeros, and since a number that is too large for a byte is refused and
not cut down to one.

`Options.level_taken_exactly` is the statement about the options: texts of the form give their
level, all others leave the default and a warning that shows the text as it was found, and the flag
for printing has no part in it.
-/

namespace BlockLang

namespace OptLevel

/-! ## The form of a level -/

/-- The levels in the order of their numbers. -/
def ranked : List OptLevel := [off, less, standard, aggressive]

/-- The text asks for the level: the blanks at its ends apart, it is the digit of the level, behind
any number of zeros and at most one plus sign. -/
def Written (level : OptLevel) (text : String) : Prop :=
  ∃ sign zeros d,
    Blank.Stripped text.toList (sign ++ (List.replicate zeros '0' ++ [Nat.digitChar d])) ∧
    (sign = [] ∨ sign = ['+']) ∧ ranked[d]? = some level

variable {level : OptLevel} {text : String}

theorem ofNumber?_eq_getElem? (n : Nat) : ofNumber? n = ranked[n]? := by
  match n with
  | 0 | 1 | 2 | 3 => rfl
  | n + 4 => rfl

/-- Levels have numbers below four. -/
theorem lt_four_of_ranked {n : Nat} (h : ranked[n]? = some level) : n < 4 :=
  (List.getElem?_eq_some_iff.mp h).1

/-- A text gives the level of the decimal number in it, if there is one; the size of a byte does not
show. -/
theorem read_eq_some_iff_writes : read text = some level ↔
    ∃ core n, Blank.Stripped text.toList core ∧ Byte.Writes core n ∧ ranked[n]? = some level := by
  rw [read, Option.bind_eq_some_iff]
  constructor
  · rintro ⟨n, hn, hlevel⟩
    rw [ofNumber?_eq_getElem?] at hlevel
    exact ⟨_, n, Blank.trim_eq_iff.mp rfl, (Byte.read_eq_some_iff.mp hn).1, hlevel⟩
  · rintro ⟨core, n, hcore, hn, hlevel⟩
    have hle : n ≤ 255 := by
      have hlt := lt_four_of_ranked hlevel
      omega
    rw [Blank.trim_eq_iff.mpr hcore]
    exact ⟨n, Byte.read_eq_some_iff.mpr ⟨hn, hle⟩, (ofNumber?_eq_getElem? n).trans hlevel⟩

/-- **Exactly the texts of the form give a level, and it is theirs.** -/
theorem read_eq_some_iff : read text = some level ↔ level.Written text := by
  rw [read_eq_some_iff_writes]
  constructor
  · rintro ⟨core, n, hcore, hn, hlevel⟩
    have hlt := lt_four_of_ranked hlevel
    have hten : n < 10 := by omega
    obtain ⟨sign, zeros, rfl, hsign⟩ := (Byte.writes_iff_of_lt_ten hten).mp hn
    exact ⟨sign, zeros, n, hcore, hsign, hlevel⟩
  · rintro ⟨sign, zeros, d, hcore, hsign, hlevel⟩
    have hlt := lt_four_of_ranked hlevel
    have hten : d < 10 := by omega
    exact ⟨_, d, hcore, (Byte.writes_iff_of_lt_ten hten).mpr ⟨sign, zeros, rfl, hsign⟩, hlevel⟩

theorem read_eq_none_iff : read text = none ↔ ∀ level : OptLevel, ¬ level.Written text := by
  rw [Option.eq_none_iff_forall_ne_some]
  exact forall_congr' fun level => not_congr read_eq_some_iff

end OptLevel

/-! ## Options -/

namespace Options

variable {text : String} {debug : Option String} {level : OptLevel}

theorem ofVariables_of_read (h : OptLevel.read text = some level) :
    ofVariables (some text) debug = (⟨level, readDump debug⟩, []) := by
  simp only [ofVariables, readLevel, h]

theorem ofVariables_of_read_eq_none (h : OptLevel.read text = none) :
    ofVariables (some text) debug = (⟨.off, readDump debug⟩, [.unreadableLevel text]) := by
  simp only [ofVariables, readLevel, h]

theorem readDump_eq_true_iff : readDump debug = true ↔ ∃ text, debug = some text ∧ text ≠ "" := by
  cases debug with
  | none => simp [readDump]
  | some text => simp [readDump]

/--
**A level is taken from the texts of its form, and from no others.**

A text gives a level without a warning exactly when it is of the form of that level. Exactly when it
is of the form of no level, the level is the default, and there is one warning, which holds the text
with its blanks. Code is printed exactly when the other variable is set and not empty, whatever the
variable of the level holds, if it is set at all.
-/
theorem level_taken_exactly (text : String) (debug : Option String) :
    (∀ level : OptLevel,
      (ofVariables (some text) debug).1.level = level ∧ (ofVariables (some text) debug).2 = [] ↔
        level.Written text) ∧
    ((ofVariables (some text) debug).1.level = .off ∧
        (ofVariables (some text) debug).2 = [.unreadableLevel text] ↔
      ∀ level : OptLevel, ¬ level.Written text) ∧
    ∀ setting : Option String,
      (ofVariables setting debug).1.dumpCode = true ↔ ∃ value, debug = some value ∧ value ≠ "" := by
  refine ⟨fun level => ?_, ?_, fun setting => readDump_eq_true_iff⟩
  · rw [← OptLevel.read_eq_some_iff]
    cases hread : OptLevel.read text with
    | none => simp [ofVariables_of_read_eq_none hread]
    | some found => simp [ofVariables_of_read hread]
  · rw [← OptLevel.read_eq_none_iff]
    cases hread : OptLevel.read text with
    | none => simp [ofVariables_of_read_eq_none hread]
    | some found => simp [ofVariables_of_read hread]

/-- Blanks of any kind, a plus sign and zeros do no harm. -/
example : ofVariables (some "\u2003+0002\n") none = ({ level := .standard }, []) := by decide

/-- No text, no digit, two signs, a minus sign, digits of another script, a blank inside; then
numbers that are too large, the last two of which would be levels if bytes wrapped around. -/
example : ∀ text ∈ ["", " ", "+", "++1", "+-1", "-0", "٢", "0 1", "4", "10", "256", "+0259"],
    ofVariables (some text) none = ({}, [.unreadableLevel text]) := by decide

end Options

end BlockLang
