import GraphSplice.Domain
import GraphSplice.Pattern
import GraphSplice.Rule.Symmetry

/-!
Rules. A rule requires some vertices and edges, of which it keeps or cuts each, and adds others.
Matched elements are numbered in the order of their declaration with the added ones left out, and
added elements likewise.
-/

namespace GraphSplice

/-- What becomes of a matched element: it stays, or it is cut, after a last callback. -/
inductive Fate (Removal : Type) where
  | kept
  | cut (removal : Option Removal)

def Fate.role {Removal : Type} : Fate Removal → Role
  | .kept => .kept
  | .cut _ => .cut

def Fate.isCut {Removal : Type} : Fate Removal → Bool
  | .kept => false
  | .cut _ => true

theorem Fate.isCut_iff {Removal : Type} {f : Fate Removal} : f.isCut ↔ f.role = .cut := by
  cases f <;> simp [isCut, role]

structure MatchedVertex (D : Domain) where
  tag : Tag
  check : Option (VertexCheck D)
  fate : Fate (VertexRemoval D)

structure MatchedEdge (D : Domain) where
  tag : Tag
  /-- Positions of matched vertices. -/
  ends : Ends Nat
  check : Option (EdgeCheck D)
  fate : Fate (EdgeRemoval D)

structure AddedVertex (D : Domain) where
  tag : Tag
  creation : Option (VertexCreation D)

structure AddedEdge (D : Domain) where
  tag : Tag
  ends : Ends Endpoint
  /-- For each end, the cut edge whose vacated socket the added edge is spliced into. -/
  sockets : Ends (Option Nat)
  creation : Option (EdgeCreation D)

/-- The added edge is spliced into vacated sockets at both ends. -/
def AddedEdge.IsSpliced {D : Domain} (e : AddedEdge D) : Prop :=
  e.sockets.first ≠ none ∧ e.sockets.second ≠ none

instance {D : Domain} (e : AddedEdge D) : Decidable e.IsSpliced :=
  inferInstanceAs (Decidable (_ ∧ _))

structure Rule (D : Domain) where
  id : RuleId
  name : Option String
  vertices : List (MatchedVertex D)
  edges : List (MatchedEdge D)
  addedVertices : List (AddedVertex D)
  addedEdges : List (AddedEdge D)
  /-- The permutations of the matched vertices that map the rule onto itself, the identity
  first. -/
  symmetries : List (List Nat)
  accepts : Option (OccurrenceCheck D)

namespace Rule

variable {D : Domain}

def pattern (r : Rule D) : Pattern := ⟨r.vertices.length, r.edges.map (·.ends)⟩

def isSymmetric (r : Rule D) : Bool := decide (1 < r.symmetries.length)

/-- Only an edge spliced at both ends can close a cycle of sockets. -/
def hasPotentialLoop (r : Rule D) : Bool := r.addedEdges.any fun e => e.IsSpliced

def deletes (r : Rule D) : Bool := r.vertices.any (·.fate.isCut) || r.edges.any (·.fate.isCut)

def label (r : Rule D) : String :=
  match r.name with
  | none => ruleLabel r.id
  | some name => ruleLabel r.id ++ "(" ++ name ++ ")"

theorem hasPotentialLoop_iff {r : Rule D} :
    r.hasPotentialLoop = true ↔ ∃ e ∈ r.addedEdges, e.IsSpliced := by
  simp [hasPotentialLoop]

end Rule

end GraphSplice
