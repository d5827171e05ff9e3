/-!
Handles name the elements of one arena by position. The kind keeps vertices, edges and rules
apart; the stable identity of a graph element is its index and not its handle.
-/

namespace GraphSplice

inductive Kind where
  | vertex
  | edge
  | rule
  deriving DecidableEq, Repr

def Kind.name : Kind → String
  | .vertex => "VertexId"
  | .edge => "EdgeId"
  | .rule => "RuleId"

structure Handle (kind : Kind) where
  slot : Nat
  deriving DecidableEq, Repr

abbrev VertexId := Handle .vertex
abbrev EdgeId := Handle .edge
abbrev RuleId := Handle .rule

namespace Handle

variable {kind : Kind}

instance : LawfulBEq (Handle kind) := inferInstance

instance : LT (Handle kind) := ⟨fun a b => a.slot < b.slot⟩

instance : DecidableLT (Handle kind) := fun a b => inferInstanceAs (Decidable (a.slot < b.slot))

theorem lt_iff {a b : Handle kind} : a < b ↔ a.slot < b.slot := Iff.rfl

theorem ext_slot {a b : Handle kind} (h : a.slot = b.slot) : a = b := by
  cases a; cases b; simp_all

/-- Handles are 32-bit words; the greatest word never names an element. -/
def unused : Handle kind := ⟨4294967295⟩

/-- The spelling with the kind, as in `VertexId(7)`. -/
def text (h : Handle kind) : String := kind.name ++ "(" ++ toString h.slot ++ ")"

end Handle

/-- The spelling of a rule in messages, as in `rule#7`. -/
def ruleLabel (id : RuleId) : String := "rule#" ++ toString id.slot

end GraphSplice
