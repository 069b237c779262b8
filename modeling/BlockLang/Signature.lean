import BlockLang.Ty.Text

/-!
# Signatures of functions

A signature gives the types of the parameters in order and the result. A table holds at most one
signature per function name: entering a name again replaces what stood there.
-/

namespace BlockLang

/-- The parameters and the result of a function. -/
structure Signature where
  params : List Ty
  ret : ReturnTy
deriving DecidableEq

namespace Signature

/-- The text of a signature, as in `(Int32, Bool) -> ()`, followed by `rest`. -/
def write (sig : Signature) (rest : List Char) : List Char :=
  '(' :: Ty.writeList sig.params (')' :: ' ' :: '-' :: '>' :: ' ' :: sig.ret.write rest)

/-- The text of a signature. -/
def text (sig : Signature) : String := String.ofList (sig.write [])

end Signature

/-- Signatures by function name. -/
structure SignatureTable where
  entries : List (String × Signature) := []

namespace SignatureTable

/-- The signature of a function. -/
def find? (table : SignatureTable) (name : String) : Option Signature :=
  table.entries.lookup name

/-- Enters a signature, in place of the one that the name had. -/
def insert (table : SignatureTable) (name : String) (sig : Signature) : SignatureTable :=
  ⟨(name, sig) :: table.entries.filter (fun entry => entry.1 != name)⟩

/-- No name has a signature in the empty table. -/
@[simp] theorem find?_empty (name : String) : ({} : SignatureTable).find? name = none := rfl

/-- A name has the signature that was entered last. -/
@[simp] theorem find?_insert_self (table : SignatureTable) (name : String) (sig : Signature) :
    (table.insert name sig).find? name = some sig := by
  simp [find?, insert]

/-- Looking up another name passes over the removed entries. -/
theorem lookup_filter_ne {name other : String} (h : other ≠ name)
    (entries : List (String × Signature)) :
    (entries.filter (fun entry => entry.1 != name)).lookup other = entries.lookup other := by
  induction entries with
  | nil => rfl
  | cons entry rest ih =>
    obtain ⟨key, sig⟩ := entry
    by_cases hk : key = name
    · have hne : (other == key) = false := by simp [hk, h]
      rw [List.filter_cons_of_neg (by simp [hk]), List.lookup_cons, hne]
      exact ih
    · rw [List.filter_cons_of_pos (by simp [hk]), List.lookup_cons, List.lookup_cons, ih]

/-- Other names keep their signatures. -/
theorem find?_insert_of_ne (table : SignatureTable) {name other : String} (sig : Signature)
    (h : other ≠ name) : (table.insert name sig).find? other = table.find? other := by
  have hne : (other == name) = false := by simp [h]
  simp only [find?, insert, List.lookup_cons, hne]
  exact lookup_filter_ne h table.entries

end SignatureTable

end BlockLang
