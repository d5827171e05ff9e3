import GraphSplice.Text.Order

/-!
Names of stored profiles. A name is made of lower-case letters, digits, hyphens and underscores
and starts with a letter or digit, so it is a file stem that can neither be hidden nor leave its
directory.
-/

namespace GraphSplice

namespace ProfileName

def isLower (c : Char) : Bool := 97 ≤ c.toNat && c.toNat ≤ 122

def isDigit (c : Char) : Bool := 48 ≤ c.toNat && c.toNat ≤ 57

def isInitial (c : Char) : Bool := isLower c || isDigit c

def isInner (c : Char) : Bool := isInitial c || c == '-' || c == '_'

def maxLength : Nat := 64

def WellFormed (s : String) : Prop :=
  s.length ≤ maxLength ∧ s.toList.head?.any isInitial = true ∧ s.toList.all isInner = true

instance (s : String) : Decidable (WellFormed s) := inferInstanceAs (Decidable (_ ∧ _ ∧ _))

end ProfileName

structure ProfileName where
  text : String
  wellFormed : ProfileName.WellFormed text

namespace ProfileName

instance : DecidableEq ProfileName := fun a b =>
  if h : a.text = b.text then .isTrue (by cases a; cases b; cases h; rfl)
  else .isFalse fun e => h (congrArg text e)

instance : LT ProfileName := ⟨fun a b => Text.precedes a.text b.text = true⟩

instance : DecidableLT ProfileName := fun a b =>
  inferInstanceAs (Decidable (Text.precedes a.text b.text = true))

def ofString? (s : String) : Option ProfileName := if h : WellFormed s then some ⟨s, h⟩ else none

/-- The profile that is read when none is named. -/
def default : ProfileName := ⟨"rule-system", by decide⟩

theorem ofString?_text (n : ProfileName) : ofString? n.text = some n := by
  simp [ofString?, n.wellFormed]

end ProfileName

end GraphSplice
