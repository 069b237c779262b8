import BlockLang.Proofs.Symbol.Uniqueness
import BlockLang.Proofs.Ty.Text

/-!
# Unique names

The unique name of a symbol is its name and its number with a dot between them. There is no dot in a
number, so the last dot of a unique name is the one between the two, whatever digits the name ends
with. There is none in a name either, so a unique name cannot be mistaken for a name.

* `Symbol.uniqueName_eq_iff` — symbols with one unique name agree in name and number;
* `Symbol.isValid_uniqueName` — a unique name is not of the form of a name;
* `Registry.uniqueName_eq_iff_of_issued` — so in a process, two issues give one unique name exactly
  when they are of one name and a multiple of `2 ^ 32` issues lies between them.
-/

namespace BlockLang

/-- There is no dot in a name. -/
theorem Ident.dot_not_mem {name : String} (h : isValid name = true) : '.' ∉ name.toList := by
  obtain ⟨c, rest, hname, hrest⟩ := exists_cons_of_isValid h
  intro hdot
  rw [hname] at hdot
  exact absurd (hrest '.' hdot) (by decide)

namespace Symbol

variable {x y : Symbol}

theorem toList_uniqueName (x : Symbol) :
    x.uniqueName.toList = x.name.toList ++ '.' :: Nat.toDigits 10 x.id.number.toNat := by
  have hdot : ".".toList = ['.'] := rfl
  rw [uniqueName, String.toList_append, String.toList_append, hdot, Nat.toList_repr,
    List.append_assoc, List.singleton_append]

/-- **Name and number can be read off a unique name.** -/
theorem uniqueName_eq_iff : x.uniqueName = y.uniqueName ↔ x.name = y.name ∧ x.id = y.id := by
  constructor
  · intro h
    have hlists := congrArg (fun name => name.toList.reverse) h
    simp only [toList_uniqueName, List.reverse_append, List.reverse_cons, List.append_assoc,
      List.singleton_append] at hlists
    -- read from the end, the dot is the first character that is no digit
    obtain ⟨hdigits, hrest⟩ := append_cons_inj
      (fun c hc => isDigit_of_mem_toDigits (List.mem_reverse.mp hc))
      (fun c hc => isDigit_of_mem_toDigits (List.mem_reverse.mp hc)) (by decide) (by decide) hlists
    have hnames : x.name.toList = y.name.toList := List.reverse_inj.mp (List.cons.inj hrest).2
    have hnumbers : x.id.number = y.id.number :=
      UInt32.toNat_inj.mp (toDigits_inj (List.reverse_inj.mp hdigits))
    exact ⟨String.toList_inj.mp hnames, congrArg SymbolId.mk hnumbers⟩
  · rintro ⟨hname, hid⟩
    rw [uniqueName, uniqueName, hname, hid]

/-- A unique name is not of the form of a name. -/
theorem isValid_uniqueName (x : Symbol) : Ident.isValid x.uniqueName = false := by
  rw [Bool.eq_false_iff]
  intro h
  apply Ident.dot_not_mem h
  rw [toList_uniqueName]
  exact List.mem_append_right _ List.mem_cons_self

theorem check_uniqueName (x : Symbol) (role : NameRole) :
    Ident.check role x.uniqueName = .error (.invalidName role x.uniqueName) := by
  rw [Ident.check, Ident.defect?, isValid_uniqueName]
  rfl

/--
**Unique names are unique.**

Two symbols, of whatever tables, names and types, have one unique name exactly when they agree in
name and number. So different variables have different unique names, also where the name of one is
the name of the other with digits behind it. A unique name is not of the form of a name: it is the
name of no variable, function or parameter.
-/
theorem uniqueName_identifies (x y : Symbol) :
    (x.uniqueName = y.uniqueName ↔ x.name = y.name ∧ x.id = y.id) ∧
    (x.same y = false → x.uniqueName ≠ y.uniqueName) ∧
    Ident.isValid x.uniqueName = false ∧
    ∀ role name, Ident.check role name = .ok () → x.uniqueName ≠ name := by
  refine ⟨uniqueName_eq_iff, ?_, isValid_uniqueName x, ?_⟩
  · intro hsame h
    have hid := (uniqueName_eq_iff.mp h).2
    rw [same, hid, beq_self_eq_true] at hsame
    cases hsame
  · rintro role _ hcheck rfl
    rw [check_uniqueName] at hcheck
    cases hcheck

/-- A variable whose name ends in a digit. -/
def digitEnding : Symbol := ⟨⟨2⟩, "x1", .bool⟩

/-- Another one, whose name and number are written with the same letters and digits. -/
def digitless : Symbol := ⟨⟨12⟩, "x", .int .w8⟩

theorem digitEnding_identifies :
    digitEnding.same digitless = false ∧ digitEnding.uniqueName ≠ digitless.uniqueName ∧
      Ident.check .function "x1" = .ok () ∧ digitEnding.uniqueName ≠ "x1" := by
  have hsame : digitEnding.same digitless = false := rfl
  have hcheck : Ident.check .function "x1" = .ok () := rfl
  obtain ⟨-, hne, -, hnames⟩ := uniqueName_identifies digitEnding digitless
  exact ⟨hsame, hne hsame, hcheck, hnames .function "x1" hcheck⟩

end Symbol

/-! ## Unique names of a process -/

/-- **Unique names are as unique as numbers.** Whatever tables are asked for, two issues give one
unique name exactly when they are of one name and a multiple of `2 ^ 32` issues lies between
them. -/
theorem Registry.uniqueName_eq_iff_of_issued {registry : Registry} {requests : List Request}
    {i j : Nat} {x y : Symbol} (hx : (registry.issued requests)[i]? = some x)
    (hy : (registry.issued requests)[j]? = some y) :
    x.uniqueName = y.uniqueName ↔ x.name = y.name ∧ i % 2 ^ 32 = j % 2 ^ 32 := by
  have hsame : x.same y = true ↔ x.id = y.id := by rw [Symbol.same, beq_iff_eq]
  rw [Symbol.uniqueName_eq_iff, ← hsame, same_iff_of_issued hx hy]

end BlockLang
