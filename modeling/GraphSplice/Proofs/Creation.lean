import GraphSplice.Proofs.Blueprint.Provenance
import GraphSplice.Proofs.Derivation

/-!
The creation callbacks of a batch. They are called on the assembled graph, once for each created
vertex and then once for each created edge, with the callback and in the context of the added
element that the created one is credited to. Where a batch is refused none is called.
-/

namespace GraphSplice

variable {D : Domain} {host : Host D} {batch : List (Resolved D)}

namespace Creation

/-- A creation callback and what it is called with. -/
inductive Call (D : Domain) where
  | vertex (run : VertexCreation D) (context : BuildContext D) (v : VertexId)
  | edge (run : EdgeCreation D) (context : BuildContext D) (e : EdgeId)

def Call.perform (out : Host D × D.BuildState) : Call D → Host D × D.BuildState
  | vertex run context v => run context v out
  | edge run context e => run context e out

/-- The callback of the added vertex that a created one is credited to. -/
def vertexCall? (host : Host D) (batch : List (Resolved D)) (x : VertexId × Provenance) :
    Option (Call D) := do
  let r ← batch[x.2.application]?
  let added ← r.rule.addedVertices[x.2.element]?
  let run ← added.creation
  return .vertex run (r.context host) x.1

/-- The callback of the added edge that a created one is credited to. -/
def edgeCall? (host : Host D) (batch : List (Resolved D)) (x : EdgeId × Provenance) :
    Option (Call D) := do
  let r ← batch[x.2.application]?
  let added ← r.rule.addedEdges[x.2.element]?
  let run ← added.creation
  return .edge run (r.context host) x.1

/-- The calls for what was created, in order. -/
def calls (host : Host D) (batch : List (Resolved D)) (a : Assembly D.Node D.Arc) :
    List (Call D) :=
  a.createdVertices.filterMap (vertexCall? host batch) ++
    a.createdEdges.filterMap (edgeCall? host batch)

end Creation

/-- What is created is what does not come from the host. -/
theorem Blueprint.Reads.mem_created_iff {b : Blueprint} {d : Derivation D} {links : List Strand}
    (reads : b.Reads host d links) :
    (∀ v, v ∈ d.createdVertices ↔
      d.graph.Contains v ∧ ∀ u, b.leads[v.slot]? ≠ some (.host u)) ∧
    ∀ e, e ∈ d.createdEdges ↔
      e.slot < d.graph.size ∧ ∀ x, links[e.slot]? = some x → ∀ e', x.origin ≠ .host e' := by
  constructor
  · intro v
    rw [reads.createdVertices, Graph.Contains, reads.order]
    constructor
    · rintro ⟨n, lead, created⟩
      refine ⟨(List.getElem?_eq_some_iff.mp lead).1, fun u lead' => ?_⟩
      cases lead.symm.trans lead'
      cases created
    · rintro ⟨inside, fresh⟩
      refine ⟨_, List.getElem?_eq_getElem inside, ?_⟩
      cases lead : b.leads[v.slot] with
      | host u => exact absurd (by rw [List.getElem?_eq_getElem inside, lead]) (fresh u)
      | created p => rfl
  · intro e
    rw [reads.createdEdges, reads.size]
    constructor
    · rintro ⟨x, link, created⟩
      refine ⟨(List.getElem?_eq_some_iff.mp link).1, fun x' link' e' origin => ?_⟩
      cases link.symm.trans link'
      rw [origin] at created
      cases created
    · rintro ⟨inside, fresh⟩
      refine ⟨_, List.getElem?_eq_getElem inside, ?_⟩
      cases origin : links[e.slot].origin with
      | host e' => exact absurd origin (fresh _ (List.getElem?_eq_getElem inside) e')
      | created p => rfl

namespace Grammar

variable {g : Grammar D}

end Grammar

end GraphSplice
