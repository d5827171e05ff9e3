import GraphSplice.Proofs.Blueprint.Classes

/-!
A derivation read position by position: at each vertex stands a lead, and at each edge a kept link.
-/

namespace GraphSplice

namespace Blueprint

open Classical in
/-- The chosen links that become edges. -/
noncomputable def kept (b : Blueprint) (chosen : List Strand) : List Strand :=
  chosen.filter fun x => b.Survives x

variable {D : Domain} {host : Host D} {b : Blueprint} {d : Derivation D} {chosen : List Strand}

theorem mem_kept_iff {x : Strand} : x ∈ b.kept chosen ↔ x ∈ chosen ∧ b.Survives x := by
  simp [kept]

/-- What stands at each vertex and edge of a derivation, for the leads and links it was made of. -/
structure Reads (b : Blueprint) (host : Host D) (d : Derivation D) (links : List Strand) :
    Prop where
  order : d.graph.order = b.leads.length
  hostVertex : ∀ v u, b.leads[v.slot]? = some (.host u) → d.graph.vertex? v = host.vertex? u
  freshVertex : ∀ v p, b.leads[v.slot]? = some (.created p) →
    ∃ index, d.graph.vertex? v = some ⟨index, D.freshNode⟩
  createdVertices : ∀ v, v ∈ d.createdVertices ↔
    ∃ n, b.leads[v.slot]? = some n ∧ n.isCreated = true
  size : d.graph.size = links.length
  hostEdge : ∀ e x e', links[e.slot]? = some x → x.origin = .host e' →
    d.graph.edge? e = (host.edge? e').map fun record => { record with ends := b.vertexEnds x }
  freshEdge : ∀ e x, links[e.slot]? = some x → x.origin.isCreated = true →
    ∃ index, d.graph.edge? e = some ⟨index, b.vertexEnds x, D.freshArc⟩
  createdEdges : ∀ e, e ∈ d.createdEdges ↔
    ∃ x, links[e.slot]? = some x ∧ x.origin.isCreated = true

namespace Reads

variable {links : List Strand} (reads : b.Reads host d links)

include reads

theorem mem_createdVertices_iff {v : VertexId} {n : NodeOrigin}
    (lead : b.leads[v.slot]? = some n) : v ∈ d.createdVertices ↔ n.isCreated = true := by
  rw [reads.createdVertices]
  constructor
  · rintro ⟨n', lead', mark⟩
    cases lead.symm.trans lead'
    exact mark
  · exact fun mark => ⟨n, lead, mark⟩

theorem mem_createdEdges_iff {e : EdgeId} {x : Strand} (link : links[e.slot]? = some x) :
    e ∈ d.createdEdges ↔ x.origin.isCreated = true := by
  rw [reads.createdEdges]
  constructor
  · rintro ⟨x', link', mark⟩
    cases link.symm.trans link'
    exact mark
  · exact fun mark => ⟨x, link, mark⟩

/-- Every edge lies between the vertices of its link; a created one has no payload of its own. -/
theorem edge {e : EdgeId} {x : Strand} (link : links[e.slot]? = some x) {record : Edge D.Arc}
    (found : d.graph.edge? e = some record) : record.ends = b.vertexEnds x ∧
      (x.origin.isCreated = true → record.payload = D.freshArc) := by
  cases origin : x.origin with
  | host e' =>
    have read := reads.hostEdge e x e' link origin
    rw [found] at read
    obtain ⟨old, -, rfl⟩ := Option.map_eq_some_iff.mp read.symm
    exact ⟨rfl, nofun⟩
  | created p =>
    obtain ⟨index, fresh⟩ := reads.freshEdge e x link (by rw [origin]; rfl)
    cases found.symm.trans fresh
    exact ⟨rfl, fun _ => rfl⟩

end Reads

theorem Yields.reads_kept (yields : b.Yields host d) (grounded : b.Grounded host)
    (selects : b.Selects chosen)
    (edges : d.graph.edges.toList =
      stamp (b.edgeRecord? host) (fun index x => ⟨index, b.vertexEnds x, D.freshArc⟩)
        host.nextEdgeIndex (b.kept chosen))
    (createdEdges : d.createdEdges =
      (positions (·.origin.isCreated) (b.kept chosen)).map Handle.mk) :
    b.Reads host d (b.kept chosen) := by
  have vertexAt : ∀ v : VertexId, d.graph.vertex? v = _ := fun v => by
    rw [Graph.vertex?, ← Array.getElem?_toList, yields.vertices, getElem?_stamp]
  have edgeAt : ∀ e : EdgeId, d.graph.edge? e = _ := fun e => by
    rw [Graph.edge?, ← Array.getElem?_toList, edges, getElem?_stamp]
  refine ⟨?_, ?_, ?_, ?_, ?_, ?_, ?_, ?_⟩
  · rw [Graph.order, ← Array.length_toList, yields.vertices, length_stamp]
  · intro v u lead
    have inside := grounded.hostNode u (mem_leads_iff.mp (List.mem_of_getElem? lead)).1
    rw [vertexAt, lead, Graph.vertex?, Array.getElem?_eq_getElem inside]
    simp only [Option.map_some, NodeOrigin.record?, Graph.vertex?]
    rw [Array.getElem?_eq_getElem inside]
    rfl
  · intro v p lead
    rw [vertexAt, lead]
    exact ⟨_, rfl⟩
  · intro v
    rw [yields.createdVertices, mem_map_mk_iff, mem_positions_iff]
  · rw [Graph.size, ← Array.length_toList, edges, length_stamp]
  · intro e x e' link origin
    have inChosen := (mem_kept_iff.mp (List.mem_of_getElem? link)).1
    have inside := grounded.hostLink x (selects.sublist.subset inChosen) e' origin
    obtain ⟨record, found⟩ := Graph.edge?_isSome_iff.mpr inside
    rw [edgeAt]
    rw [link, found]
    simp only [Option.map_some, edgeRecord?, origin, LinkOrigin.record?, found]
    rfl
  · intro e x link created
    have unknown : b.edgeRecord? host x = none := by
      unfold edgeRecord?
      cases origin : x.origin with
      | host e' =>
        rw [origin] at created
        cases created
      | created p => rfl
    rw [edgeAt]
    rw [link, Option.map_some, unknown]
    exact ⟨_, rfl⟩
  · intro e
    rw [createdEdges, mem_map_mk_iff, mem_positions_iff]

theorem Yields.exists_reads (yields : b.Yields host d) (grounded : b.Grounded host) :
    ∃ chosen, b.Selects chosen ∧ b.Reads host d (b.kept chosen) := by
  obtain ⟨chosen, selects, edges, createdEdges, -⟩ := yields.edges
  exact ⟨chosen, selects, yields.reads_kept grounded selects edges createdEdges⟩

end Blueprint

end GraphSplice
