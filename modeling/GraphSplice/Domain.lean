import GraphSplice.Graph

/-!
A domain fixes the payloads of a graph and the states that a caller threads through matching and
through construction. Callbacks are functions that return the state they leave.
-/

namespace GraphSplice

structure Domain where
  Node : Type
  Arc : Type
  MatchState : Type
  BuildState : Type
  /-- The payload of a created vertex before its callback runs. -/
  freshNode : Node
  /-- The payload of a created edge before its callback runs. -/
  freshArc : Arc

/-- Payloads and states without content. -/
abbrev Domain.plain : Domain := ⟨Unit, Unit, Unit, Unit, (), ()⟩

abbrev Host (D : Domain) := Graph D.Node D.Arc

/-- A place in a host graph where a rule applies: the vertex bound to each matched vertex of the
rule and the edge bound to each matched edge. Without edges, these are chosen on application. -/
structure Occurrence where
  vertices : List VertexId
  edges : List EdgeId
  deriving DecidableEq, Repr

def Occurrence.ofVertices (vertices : List VertexId) : Occurrence := ⟨vertices, []⟩

/-- What a predicate sees while a rule is matched. -/
structure MatchContext (D : Domain) where
  host : Host D
  rule : RuleId

/-- What a callback sees while a rule is applied. The host stays as it was. -/
structure BuildContext (D : Domain) where
  host : Host D
  occurrence : Occurrence
  rule : RuleId

section Callbacks

variable (D : Domain)

abbrev VertexCheck := MatchContext D → VertexId → D.MatchState → Bool × D.MatchState

abbrev EdgeCheck := MatchContext D → EdgeId → D.MatchState → Bool × D.MatchState

/-- Run once for each complete embedding. -/
abbrev OccurrenceCheck := MatchContext D → Occurrence → D.MatchState → Bool × D.MatchState

abbrev VertexRemoval := BuildContext D → VertexId → D.BuildState → D.BuildState

abbrev EdgeRemoval := BuildContext D → EdgeId → D.BuildState → D.BuildState

/-- Run on the built graph, which it may change. -/
abbrev VertexCreation := BuildContext D → VertexId → Host D × D.BuildState → Host D × D.BuildState

abbrev EdgeCreation := BuildContext D → EdgeId → Host D × D.BuildState → Host D × D.BuildState

end Callbacks

end GraphSplice
