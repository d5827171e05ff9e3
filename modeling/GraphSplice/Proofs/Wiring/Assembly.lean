import GraphSplice.Proofs.Except
import GraphSplice.Proofs.Graph.Consistency
import GraphSplice.Wiring.Assembly

/-!
A graph is assembled from a wiring by adding vertices and edges to an empty graph. What every
addition keeps thus holds of the assembled graph; in particular it is consistent, and graph
operations build it.
-/

namespace GraphSplice

variable {N E : Type} {host : Graph N E} {P : Graph N E → Prop}

/-- What holds of a graph still holds after an element is added. -/
structure KeptByAdding (P : Graph N E → Prop) : Prop where
  vertex : ∀ g index payload, P g → P (g.addVertexAt index payload)
  edge : ∀ g g' a b index payload, P g → g.addEdgeAt a b index payload = .ok g' → P g'

theorem Graph.Consistent.keptByAdding : KeptByAdding (Graph.Consistent (N := N) (E := E)) where
  vertex _ index payload consistent := consistent.addVertexAt index payload
  edge _ _ _ _ _ _ consistent added := consistent.addEdgeAt added

theorem Graph.Built.keptByAdding : KeptByAdding (Graph.Built (N := N) (E := E)) where
  vertex _ index payload built := built.addVertexAt index payload
  edge _ _ _ _ _ _ built added := built.addEdgeAt added

namespace Assembly

theorem placeNode_keeps (kept : KeptByAdding P) {fresh : N} {a a' : Assembly N E}
    {joint : JointId × Joint} (before : P a.graph) (h : placeNode host fresh a joint = .ok a') :
    P a'.graph := by
  unfold placeNode at h
  split at h
  · cases h
    exact before
  · split at h
    · cases h
    · cases h
      exact kept.vertex _ _ _ before
  · cases h
    exact kept.vertex _ _ _ before

theorem ofGraphError_ok {α : Type} {x : Except GraphError α} {y : α}
    (h : ofGraphError x = .ok y) : x = .ok y := by
  cases x with
  | error e => cases h
  | ok z =>
    cases h
    rfl

theorem placeLink_keeps (kept : KeptByAdding P) {fresh : E} {a a' : Assembly N E} {u v : VertexId}
    {origin : LinkOrigin} (before : P a.graph)
    (h : placeLink host fresh a u v origin = .ok a') : P a'.graph := by
  cases origin with
  | host e =>
    unfold placeLink at h
    dsimp only at h
    split at h
    · cases h
    · obtain ⟨graph, added, h⟩ := bind_ok h
      cases h
      exact kept.edge _ _ _ _ _ _ before (ofGraphError_ok added)
  | created p =>
    obtain ⟨graph, added, h⟩ := bind_ok h
    cases h
    exact kept.edge _ _ _ _ _ _ before (ofGraphError_ok added)

theorem placeWire_keeps (kept : KeptByAdding P) {w : Wiring} {fresh : E} {a a' : Assembly N E}
    {wire : Wire} (before : P a.graph) (h : placeWire w host fresh a wire = .ok a') :
    P a'.graph := by
  unfold placeWire at h
  split at h
  · cases h
    exact before
  · obtain ⟨first, _, h⟩ := bind_ok h
    obtain ⟨second, _, h⟩ := bind_ok h
    split at h
    · cases h
      exact before
    · split at h
      · exact placeLink_keeps kept before h
      · cases h
        exact before

end Assembly

namespace Wiring

variable {w : Wiring} {freshNode : N} {freshEdge : E} {a : Assembly N E}

theorem assemble_keeps (kept : KeptByAdding P) (start : P host.emptyAfter)
    (h : w.assemble host freshNode freshEdge = .ok a) : P a.graph := by
  unfold assemble at h
  split at h
  · cases h
  · obtain ⟨nodes, placed, h⟩ := bind_ok h
    have between := foldlM_keeps (P := fun a : Assembly N E => P a.graph)
      (fun _ _ _ before step => Assembly.placeNode_keeps kept before step) start placed
    exact foldlM_keeps (P := fun a : Assembly N E => P a.graph)
      (fun _ _ _ before step => Assembly.placeWire_keeps kept before step) between h

theorem consistent_assemble (h : w.assemble host freshNode freshEdge = .ok a) :
    a.graph.Consistent :=
  assemble_keeps Graph.Consistent.keptByAdding (.emptyAfter host) h

theorem built_assemble (built : host.Built) (h : w.assemble host freshNode freshEdge = .ok a) :
    a.graph.Built :=
  assemble_keeps Graph.Built.keptByAdding (.emptyAfter built) h

end Wiring

end GraphSplice
