/-!
The settings of a grammar.
-/

namespace GraphSplice

/-- When a derivation is checked for odd cycles of sockets. -/
inductive ParityPolicy where
  | always
  /-- Only once a rule with an edge spliced at both ends has been registered: no other rule can
  close a cycle. -/
  | whenArmed
  deriving DecidableEq, Repr

namespace ParityPolicy

def shouldCheck (armed : Bool) : ParityPolicy → Bool
  | always => true
  | whenArmed => armed

/-- The spelling in documents. -/
def name : ParityPolicy → String
  | always => "always"
  | whenArmed => "when_armed"

def ofName? (s : String) : Option ParityPolicy :=
  if s = "always" then some always else if s = "when_armed" then some whenArmed else none

theorem ofName?_name (p : ParityPolicy) : ofName? p.name = some p := by cases p <;> rfl

theorem ofName?_eq_some_iff {s : String} {p : ParityPolicy} : ofName? s = some p ↔ s = p.name := by
  constructor
  · intro h
    unfold ofName? at h
    split at h
    · cases h
      assumption
    · split at h
      · cases h
        assumption
      · cases h
  · rintro rfl
    exact ofName?_name p

def text : ParityPolicy → String
  | always => "Always"
  | whenArmed => "WhenArmed"

end ParityPolicy

structure Settings where
  parity : ParityPolicy
  /-- The greatest number of occurrences found for a rule, if there is one. -/
  matchLimit : Option Nat
  /-- Whether events show the wiring after insertion and after merging. -/
  showWiring : Bool
  deriving DecidableEq, Repr

namespace Settings

def default : Settings := ⟨.always, none, false⟩

def text (s : Settings) : String :=
  let limit := match s.matchLimit with
    | none => "None"
    | some n => "Some(" ++ toString n ++ ")"
  "RuleSystemConfig \x7b parity_check: " ++ s.parity.text ++ ", match_limit: " ++ limit ++
    ", trace_pregraph: " ++ toString s.showWiring ++ " \x7d"

end Settings

end GraphSplice
