/-!
# Names

Variables, functions and parameters have names of one form: a lowercase ASCII letter followed by
ASCII letters, digits or underscores. The classes of core's `Char` are ASCII only, which is what the
form asks for.

Names of struct fields are not of this form; any text may name a field.
-/

namespace BlockLang

/-- What a name stands for. -/
inductive NameRole where
  | variable
  | function
  | parameter
deriving DecidableEq

/-- The word for a role in messages. -/
def NameRole.word : NameRole → String
  | .variable => "variable"
  | .function => "function"
  | .parameter => "parameter"

namespace Ident

/-- A character that may stand after the first one. -/
def isRest (c : Char) : Bool := c.isAlphanum || c == '_'

/-- The form of a name, on characters. -/
def accepts : List Char → Bool
  | [] => false
  | c :: rest => c.isLower && rest.all isRest

/-- Whether a text has the form of a name. -/
def isValid (name : String) : Bool := accepts name.toList

/-- The empty text is no name. -/
@[simp] theorem accepts_nil : accepts [] = false := rfl

@[simp] theorem accepts_cons (c : Char) (rest : List Char) :
    accepts (c :: rest) = (c.isLower && rest.all isRest) := rfl

/-- A name starts with a character, and all its characters may stand in a name. -/
theorem exists_cons_of_isValid {name : String} (h : isValid name = true) :
    ∃ c rest, name.toList = c :: rest ∧ ∀ d ∈ c :: rest, isRest d = true := by
  rw [isValid] at h
  cases hname : name.toList with
  | nil =>
    rw [hname] at h
    cases h
  | cons c rest =>
    rw [hname, accepts_cons, Bool.and_eq_true, List.all_eq_true] at h
    have hsplit : isRest c = (c.isUpper || c.isLower || c.isDigit || c == '_') := rfl
    have hc : isRest c = true := by simp [hsplit, h.1]
    exact ⟨c, rest, rfl, List.forall_mem_cons.mpr ⟨hc, h.2⟩⟩

end Ident

end BlockLang
