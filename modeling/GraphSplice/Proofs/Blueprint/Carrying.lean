import GraphSplice.Proofs.Blueprint.Growth
import GraphSplice.Proofs.Blueprint.Separation

/-!
One more application on a graph that was drawn from the blueprint of those before it. Carried to
the places of the elements that it binds, it is valid there.
-/

namespace GraphSplice

variable {D : Domain} {host g : Host D} {batch done : List (Resolved D)} {r : Resolved D}

namespace Blueprint

/-- The vertex that stands for a host vertex. -/
def vertexPlace (b : Blueprint) (v : VertexId) : VertexId := ⟨b.nodes.idxOf (.host v)⟩

/-- The edge that stands for a host edge. -/
def edgePlace (b : Blueprint) (e : EdgeId) : EdgeId := ⟨b.links.idxOf (hostStrand e)⟩

variable {b : Blueprint}

theorem node_at_vertexPlace {v : VertexId} (h : .host v ∈ b.nodes) :
    b.nodes[(b.vertexPlace v).slot]? = some (.host v) := getElem?_idxOf h

theorem link_at_edgePlace {e : EdgeId} (h : hostStrand e ∈ b.links) :
    b.links[(b.edgePlace e).slot]? = some (hostStrand e) := getElem?_idxOf h

theorem vertexPlace_of_node (grounded : b.Grounded host) {u v : VertexId}
    (found : b.nodes[u.slot]? = some (.host v)) : b.vertexPlace v = u :=
  Handle.ext_slot (idxOf_of_getElem? grounded.nodes found)

theorem edgePlace_of_link (grounded : b.Grounded host) {d e : EdgeId}
    (found : b.links[d.slot]? = some (hostStrand e)) : b.edgePlace e = d :=
  Handle.ext_slot (idxOf_of_getElem? grounded.links found)

namespace Draws

theorem order (draws : b.Draws host g) : g.order = b.nodes.length := by
  rw [Graph.order, ← Array.length_toList, draws.vertices, length_stamp]

theorem size (draws : b.Draws host g) : g.size = b.links.length := by
  rw [Graph.size, ← Array.length_toList, draws.edges, length_stamp]

theorem contains_iff (draws : b.Draws host g) {v : VertexId} :
    g.Contains v ↔ ∃ n, b.nodes[v.slot]? = some n := by
  unfold Graph.Contains
  rw [draws.order]
  constructor
  · exact fun inside => ⟨_, List.getElem?_eq_getElem inside⟩
  · intro found
    obtain ⟨n, found⟩ := found
    exact (List.getElem?_eq_some_iff.mp found).1

theorem edge_ends (draws : b.Draws host g) {e : EdgeId} {x : Strand}
    (found : b.links[e.slot]? = some x) :
    ∃ record, g.edge? e = some record ∧ record.ends = b.vertexEnds x := by
  have stamped := getElem?_stamp (b.edgeRecord? host)
    (fun index x => (⟨index, b.vertexEnds x, D.freshArc⟩ : Edge D.Arc)) host.nextEdgeIndex b.links
    e.slot
  rw [← draws.edges, Array.getElem?_toList, found, Option.map_some] at stamped
  refine ⟨_, stamped, ?_⟩
  unfold edgeRecord?
  cases x.origin.record? host <;> rfl

end Draws

/-- The ends of a host edge, at the places of its vertices. -/
theorem vertexEnds_hostStrand (separate : Separate host batch)
    (grounded : (of host batch).Grounded host) {e : EdgeId} {record : Edge D.Arc}
    (remains : Remains host batch e) (found : host.edge? e = some record) :
    (of host batch).vertexEnds (hostStrand e) =
      record.ends.map (of host batch).vertexPlace := by
  obtain ⟨-, record', found', first, second⟩ := remains
  rw [found] at found'
  cases found'
  have place : ∀ side, ¬ CutsVertex batch (record.ends.get side) →
      (of host batch).vertexAt (.host e side) =
        (of host batch).vertexPlace (record.ends.get side) := by
    intro side uncut
    have owns : (of host batch).owner (.host e side) = some (.host (record.ends.get side)) :=
      ownerIn_host_iff.mpr ⟨record, found, uncut, rfl⟩
    rw [separate.detached.vertexAt_eq_iff grounded owns]
    exact node_at_vertexPlace (grounded.owner _ _ owns)
  exact congrArg₂ Ends.mk (place .first first) (place .second second)

end Blueprint

/-- The application at the places of what it binds. -/
def Resolved.carried (b : Blueprint) (r : Resolved D) : Resolved D :=
  ⟨r.rule, ⟨r.occurrence.vertices.map b.vertexPlace, r.occurrence.edges.map b.edgePlace⟩⟩

theorem Rule.boundEnds?_map (f : VertexId → VertexId) (edge : MatchedEdge D)
    (vertices : List VertexId) :
    boundEnds? edge (vertices.map f) = (boundEnds? edge vertices).map (Ends.map f) := by
  unfold boundEnds?
  rw [List.getElem?_map, List.getElem?_map]
  cases vertices[edge.ends.first]? <;> cases vertices[edge.ends.second]? <;> rfl

theorem cutsVertex_iff_exists {v : VertexId} :
    CutsVertex batch v ↔ ∃ s ∈ batch, CutsVertex [s] v := by
  simp [CutsVertex]

theorem cutsEdge_iff_exists {e : EdgeId} : CutsEdge batch e ↔ ∃ s ∈ batch, CutsEdge [s] e := by
  simp [CutsEdge]

open Blueprint

/-- A graph drawn from the applications before, and the application that comes next. -/
structure Pending (host g : Host D) (done : List (Resolved D)) (r : Resolved D) : Prop where
  separate : Separate host (done ++ [r])
  grounded : (of host done).Grounded host
  draws : (of host done).Draws host g

namespace Pending

theorem separate_done (p : Pending host g done r) : Separate host done :=
  p.separate.of_sublist (List.sublist_append_left _ _)

theorem valid (p : Pending host g done r) : r.Valid host :=
  p.separate.valid r (by simp)

theorem distinct (p : Pending host g done r) : r.Distinct :=
  p.separate.distinct r (by simp)

theorem spares (p : Pending host g done r) {s : Resolved D} (hs : s ∈ done) :
    s.Spares host r ∧ r.Spares host s :=
  (List.pairwise_append.mp p.separate.spares).2.2 s hs r (by simp)

/-- What the application binds is still there. -/
theorem bound_vertex (p : Pending host g done r) {v : VertexId} (hv : v ∈ r.occurrence.vertices) :
    .host v ∈ (of host done).nodes := by
  apply host_mem_nodes_iff.mpr
  refine ⟨p.valid.vertices v hv, ?_⟩
  rw [cutsVertex_iff_exists]
  intro cut
  obtain ⟨s, hs, cut⟩ := cut
  exact (p.spares hs).1.vertices v hv cut

theorem bound_edge (p : Pending host g done r) {e : EdgeId} (he : e ∈ r.occurrence.edges) :
    Remains host done e := by
  obtain ⟨j, found⟩ := List.getElem?_of_mem he
  have inside : j < r.rule.edges.length := by
    rw [← p.valid.edgeArity]
    exact (List.getElem?_eq_some_iff.mp found).1
  obtain ⟨record, ends, there, -⟩ :=
    p.valid.edges j _ e (List.getElem?_eq_getElem inside) found
  refine ⟨?_, record, there, ?_, ?_⟩
  · rw [cutsEdge_iff_exists]
    intro cut
    obtain ⟨s, hs, cut⟩ := cut
    exact ((p.spares hs).1.edges e he).1 cut
  · rw [cutsVertex_iff_exists]
    intro cut
    obtain ⟨s, hs, cut⟩ := cut
    obtain ⟨-, record', there', first, -⟩ := (p.spares hs).1.edges e he
    rw [there] at there'
    cases there'
    exact first cut
  · rw [cutsVertex_iff_exists]
    intro cut
    obtain ⟨s, hs, cut⟩ := cut
    obtain ⟨-, record', there', -, second⟩ := (p.spares hs).1.edges e he
    rw [there] at there'
    cases there'
    exact second cut

/-- The carried application is valid on the drawn graph. -/
theorem valid_carried (p : Pending host g done r) : (r.carried (of host done)).Valid g := by
  constructor
  case rule => exact p.valid.rule
  case arity =>
    simp only [Resolved.carried, List.length_map]
    exact p.valid.arity
  case vertices =>
    intro u hu
    obtain ⟨v, hv, rfl⟩ := List.mem_map.mp hu
    exact p.draws.contains_iff.mpr ⟨_, node_at_vertexPlace (p.bound_vertex hv)⟩
  case edgeArity =>
    simp only [Resolved.carried, List.length_map]
    exact p.valid.edgeArity
  case edges =>
    intro j edge d hedge hd
    simp only [Resolved.carried, List.getElem?_map] at hedge hd
    obtain ⟨e, he, rfl⟩ := Option.map_eq_some_iff.mp hd
    obtain ⟨record, ends, there, bound, joins⟩ := p.valid.edges j edge e hedge he
    have remains := p.bound_edge (List.mem_of_getElem? he)
    obtain ⟨record', found, same⟩ :=
      p.draws.edge_ends (link_at_edgePlace (hostStrand_mem_links_iff.mpr remains))
    rw [vertexEnds_hostStrand p.separate_done p.grounded remains there] at same
    refine ⟨record', ends.map (of host done).vertexPlace, found, ?_, ?_⟩
    · simp only [Resolved.carried]
      rw [Rule.boundEnds?_map, bound]
      rfl
    · rw [same]
      exact joins.map _

theorem distinct_carried (p : Pending host g done r) : (r.carried (of host done)).Distinct := by
  constructor
  · apply List.Nodup.map_on _ p.distinct.1
    intro u hu v hv same
    have first := node_at_vertexPlace (p.bound_vertex hu)
    have second := node_at_vertexPlace (p.bound_vertex hv)
    rw [same, second] at first
    cases first
    rfl
  · apply List.Nodup.map_on _ p.distinct.2
    intro d hd e he same
    have first := link_at_edgePlace (hostStrand_mem_links_iff.mpr (p.bound_edge hd))
    have second := link_at_edgePlace (hostStrand_mem_links_iff.mpr (p.bound_edge he))
    rw [same, second] at first
    cases first
    rfl

theorem separate_carried (p : Pending host g done r) : Separate g [r.carried (of host done)] :=
  .singleton p.valid_carried p.distinct_carried (p.separate.splices r (by simp))

/-! ## Cuts -/

theorem cutsVertex_carried_iff (p : Pending host g done r) {u : VertexId} {n : NodeOrigin}
    (found : (of host done).nodes[u.slot]? = some n) :
    CutsVertex [r.carried (of host done)] u ↔ ∃ v, n = .host v ∧ CutsVertex [r] v := by
  simp only [cutsVertex_singleton_iff]
  constructor
  · intro cut
    obtain ⟨⟨x, u'⟩, hx, fate, rfl⟩ := cut
    obtain ⟨i, there⟩ := List.getElem?_of_mem hx
    obtain ⟨vertex, bound⟩ := List.getElem?_zip_eq_some.mp there
    simp only [Resolved.carried, List.getElem?_map] at bound vertex
    obtain ⟨v, hv, rfl⟩ := Option.map_eq_some_iff.mp bound
    rw [node_at_vertexPlace (p.bound_vertex (List.mem_of_getElem? hv))] at found
    cases found
    exact ⟨v, rfl, (x, v), List.mem_of_getElem? (List.getElem?_zip_eq_some.mpr ⟨vertex, hv⟩), fate,
      rfl⟩
  · intro cut
    obtain ⟨v, rfl, ⟨x, v'⟩, hx, fate, rfl⟩ := cut
    obtain ⟨i, there⟩ := List.getElem?_of_mem hx
    obtain ⟨vertex, bound⟩ := List.getElem?_zip_eq_some.mp there
    refine ⟨(x, u), List.mem_of_getElem? (i := i) (List.getElem?_zip_eq_some.mpr ⟨vertex, ?_⟩), fate,
      rfl⟩
    simp only [Resolved.carried, List.getElem?_map]
    rw [bound, Option.map_some, vertexPlace_of_node p.grounded found]

theorem cutsEdge_carried_iff (p : Pending host g done r) {d : EdgeId} {x : Strand}
    (found : (of host done).links[d.slot]? = some x) :
    CutsEdge [r.carried (of host done)] d ↔ ∃ e, x = hostStrand e ∧ CutsEdge [r] e := by
  simp only [cutsEdge_singleton_iff]
  constructor
  · intro cut
    obtain ⟨⟨y, d'⟩, hy, fate, rfl⟩ := cut
    obtain ⟨i, there⟩ := List.getElem?_of_mem hy
    obtain ⟨edge, bound⟩ := List.getElem?_zip_eq_some.mp there
    simp only [Resolved.carried, List.getElem?_map] at bound edge
    obtain ⟨e, he, rfl⟩ := Option.map_eq_some_iff.mp bound
    have remains := p.bound_edge (List.mem_of_getElem? he)
    rw [link_at_edgePlace (hostStrand_mem_links_iff.mpr remains)] at found
    cases found
    exact ⟨e, rfl, (y, e), List.mem_of_getElem? (List.getElem?_zip_eq_some.mpr ⟨edge, he⟩), fate, rfl⟩
  · intro cut
    obtain ⟨e, rfl, ⟨y, e'⟩, hy, fate, rfl⟩ := cut
    obtain ⟨i, there⟩ := List.getElem?_of_mem hy
    obtain ⟨edge, bound⟩ := List.getElem?_zip_eq_some.mp there
    refine ⟨(y, d), List.mem_of_getElem? (i := i) (List.getElem?_zip_eq_some.mpr ⟨edge, ?_⟩), fate,
      rfl⟩
    simp only [Resolved.carried, List.getElem?_map]
    rw [bound, Option.map_some, edgePlace_of_link p.grounded found]

end Pending

end GraphSplice
