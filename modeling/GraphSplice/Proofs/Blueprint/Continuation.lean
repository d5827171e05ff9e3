import GraphSplice.Proofs.Blueprint.Carrying

/-!
The graph drawn from the carried application is the one drawn from all applications so far: its
nodes and links stand for those of the larger batch, place by place.
-/

namespace GraphSplice

variable {D : Domain} {host g : Host D} {done : List (Resolved D)} {r : Resolved D}

/-- The vertices that the application does not cut. -/
def Resolved.sparedVertices (g : Host D) (r : Resolved D) : List VertexId :=
  g.vertexIds.filter fun v => ¬ CutsVertex [r] v

/-- The edges that the application leaves, with both ends. -/
def Resolved.sparedEdges (g : Host D) (r : Resolved D) : List EdgeId :=
  g.edgeIds.filter fun e => Blueprint.Remains g [r] e

theorem Resolved.mem_sparedEdges_iff {e : EdgeId} :
    e ∈ r.sparedEdges g ↔ Blueprint.Remains g [r] e := by
  unfold sparedEdges
  rw [List.mem_filter, decide_eq_true_eq]
  constructor
  · exact fun mem => mem.2
  · intro remains
    have known := remains.2
    obtain ⟨record, found, -⟩ := known
    exact ⟨Graph.mem_edgeIds.mpr (Graph.edge?_isSome_iff.mp ⟨record, found⟩), remains⟩

theorem Resolved.mem_sparedVertices_iff {v : VertexId} :
    v ∈ r.sparedVertices g ↔ g.Contains v ∧ ¬ CutsVertex [r] v := by
  unfold sparedVertices
  rw [List.mem_filter, Graph.mem_vertexIds, decide_eq_true_eq]

namespace Blueprint

theorem nodes_singleton : (of g [r]).nodes =
    (r.sparedVertices g).map NodeOrigin.host ++ r.addedNodes 0 := by
  simp [of, hostNodes, Resolved.sparedVertices]

theorem links_singleton : (of g [r]).links =
    (r.sparedEdges g).map hostStrand ++ r.addedLinks g 0 := by
  simp only [of, hostLinks, Resolved.sparedEdges, List.zipIdx_singleton, List.flatMap_singleton]
  rfl

end Blueprint

open Blueprint

/-- The application that comes next, on blueprints in which all sockets have owners. -/
structure Continued (host g : Host D) (done : List (Resolved D)) (r : Resolved D) : Prop
    extends Pending host g done r where
  grounded_next : (of host (done ++ [r])).Grounded host
  grounded_carried : (of g [r.carried (of host done)]).Grounded g

namespace Continued

/-! ## Nodes -/

theorem spared_vertex_iff (c : Continued host g done r) {u : VertexId} {n : NodeOrigin}
    (found : (of host done).nodes[u.slot]? = some n) :
    ¬ CutsVertex [r.carried (of host done)] u ↔ n ∈ (of host (done ++ [r])).nodes := by
  rw [c.cutsVertex_carried_iff found]
  rcases mem_nodes_iff.mp (List.mem_of_getElem? found) with ⟨v, rfl, contained, uncut⟩ |
      ⟨a, s, k, there, inside, rfl⟩
  · rw [host_mem_nodes_iff, cutsVertex_append_iff]
    simp [contained, uncut]
  · constructor
    · intro _
      apply mem_nodes_iff.mpr
      refine .inr ⟨a, s, k, ?_, inside, rfl⟩
      rw [List.getElem?_append_left (List.getElem?_eq_some_iff.mp there).1]
      exact there
    · intro _ cut
      obtain ⟨v, same, -⟩ := cut
      cases same

/-- A node of the carried application stands for a node of the larger batch. -/
def Stands (host : Host D) (done : List (Resolved D)) (r : Resolved D) :
    NodeOrigin → NodeOrigin → Prop
  | .host u, n => (of host done).nodes[u.slot]? = some n
  | .created p, n => ∃ k, p = ⟨r.id, k, 0⟩ ∧ n = .created ⟨r.id, k, done.length⟩

theorem Stands.unique {m n n' : NodeOrigin} (first : Stands host done r m n)
    (second : Stands host done r m n') : n = n' := by
  cases m with
  | host u => exact Option.some.inj (first.symm.trans second)
  | created p =>
    obtain ⟨k, rfl, rfl⟩ := first
    obtain ⟨k', same, rfl⟩ := second
    cases same
    rfl

theorem map_sparedVertices (c : Continued host g done r) :
    ((r.carried (of host done)).sparedVertices g).map (fun u => (of host done).nodes[u.slot]?) =
      ((of host done).nodes.filter fun n => n ∈ (of host (done ++ [r])).nodes).map some := by
  have places := map_filter_handles (of host done).nodes
    (p := fun u : VertexId => decide (¬ CutsVertex [r.carried (of host done)] u))
    (q := fun n => decide (n ∈ (of host (done ++ [r])).nodes))
    fun u n found => decide_eq_decide.mpr (c.spared_vertex_iff found)
  rw [← c.draws.order] at places
  exact places

theorem nodes_correspond (c : Continued host g done r) :
    List.Forall₂ (Stands host done r) (of g [r.carried (of host done)]).nodes
      (of host (done ++ [r])).nodes := by
  rw [nodes_singleton, nodes_append]
  apply List.rel_append
  · rw [List.forall₂_map_left_iff]
    have same := c.map_sparedVertices
    rw [← List.forall₂_eq_eq_eq, List.forall₂_map_left_iff, List.forall₂_map_right_iff] at same
    exact same
  · unfold Resolved.addedNodes
    rw [List.forall₂_map_left_iff, List.forall₂_map_right_iff]
    exact List.forall₂_same.mpr fun k _ => ⟨k, rfl, rfl⟩

theorem node_stands (c : Continued host g done r) {i : Nat} {m : NodeOrigin}
    (found : (of g [r.carried (of host done)]).nodes[i]? = some m) :
    ∃ n, (of host (done ++ [r])).nodes[i]? = some n ∧ Stands host done r m n :=
  (forall₂_getElem? c.nodes_correspond i).1 m found

/-- Sockets of owners that stand for one another are at the same vertex. -/
theorem vertexAt_eq (c : Continued host g done r) {s t : Socket} {m n : NodeOrigin}
    (hs : (of g [r.carried (of host done)]).owner s = some m)
    (ht : (of host (done ++ [r])).owner t = some n) (stands : Stands host done r m n) :
    (of g [r.carried (of host done)]).vertexAt s = (of host (done ++ [r])).vertexAt t := by
  have found := c.separate_carried.detached.node_at_vertexAt c.grounded_carried hs
  obtain ⟨n', there, stands'⟩ := c.node_stands found
  obtain rfl := stands.unique stands'
  exact ((c.separate.detached.vertexAt_eq_iff c.grounded_next ht).mpr there).symm

/-! ## Links -/

/-- The ends of an edge of the drawn graph are at the owners of the sockets of its link. -/
theorem end_of_link (c : Continued host g done r) {d : EdgeId} {x : Strand}
    (found : (of host done).links[d.slot]? = some x) : ∃ record, g.edge? d = some record ∧
      ∀ side, ∃ n, (of host done).owner (x.ends.get side) = some n ∧
        (of host done).nodes[(record.ends.get side).slot]? = some n := by
  obtain ⟨record, there, ends⟩ := c.draws.edge_ends found
  refine ⟨record, there, ?_⟩
  intro side
  obtain ⟨n, owns⟩ := Option.isSome_iff_exists.mp
    (c.grounded.ends x (List.mem_of_getElem? found) side)
  refine ⟨n, owns, ?_⟩
  have place := c.separate_done.detached.node_at_vertexAt c.grounded owns
  rw [ends]
  cases side <;> exact place

/-- The carried application cuts an end of a host edge where the application itself does. -/
theorem cutsVertex_end_iff (c : Continued host g done r) {e : EdgeId} {side : Side}
    {old : Edge D.Arc} (known : host.edge? e = some old) {n : NodeOrigin} {u : VertexId}
    (owns : (of host done).owner (.host e side) = some n)
    (node : (of host done).nodes[u.slot]? = some n) :
    CutsVertex [r.carried (of host done)] u ↔ CutsVertex [r] (old.ends.get side) := by
  obtain ⟨record, found, -, rfl⟩ := ownerIn_host_iff.mp owns
  rw [known] at found
  cases found
  rw [c.cutsVertex_carried_iff node]
  constructor
  · rintro ⟨v, same, cut⟩
    cases same
    exact cut
  · exact fun cut => ⟨_, rfl, cut⟩

/-- The carried application cuts no end of an edge that an earlier application added. -/
theorem not_cutsVertex_end (c : Continued host g done r) {a k : Nat} {s : Resolved D}
    {y : AddedEdge D} (hs : done[a]? = some s) (hy : s.rule.addedEdges[k]? = some y) {side : Side}
    {n : NodeOrigin} {u : VertexId}
    (owns : (of host done).owner (s.socket host a k y side) = some n)
    (node : (of host done).nodes[u.slot]? = some n) :
    ¬ CutsVertex [r.carried (of host done)] u := by
  intro cut
  rw [c.cutsVertex_carried_iff node] at cut
  obtain ⟨v, rfl, cut⟩ := cut
  change ownerIn host done (s.socket host a k y side) = some (.host v) at owns
  rw [c.separate_done.apart.ownerIn_socket hs hy] at owns
  -- The vertex is one that the earlier application binds.
  cases endpoint : y.ends.get side with
  | matched i =>
    rw [endpoint] at owns
    simp only [Resolved.node?, Option.map_eq_some_iff, NodeOrigin.host.injEq] at owns
    obtain ⟨u, hu, rfl⟩ := owns
    exact (c.spares (List.mem_of_getElem? hs)).2.vertices u (List.mem_of_getElem? hu) cut
  | created l =>
    rw [endpoint] at owns
    simp [Resolved.node?] at owns

theorem spared_edge_iff (c : Continued host g done r) {d : EdgeId} {x : Strand}
    (found : (of host done).links[d.slot]? = some x) :
    Remains g [r.carried (of host done)] d ↔ x ∈ (of host (done ++ [r])).links := by
  obtain ⟨record, there, owners⟩ := c.end_of_link found
  rw [remains_iff there, c.cutsEdge_carried_iff found]
  rcases mem_links_iff.mp (List.mem_of_getElem? found) with ⟨e, rfl, remains⟩ |
      ⟨a, s, k, y, hs, hy, rfl⟩
  · change (¬ (∃ e', hostStrand e = hostStrand e' ∧ CutsEdge [r] e') ∧ _) ↔ hostStrand e ∈ _
    rw [hostStrand_mem_links_iff, remains_append_iff]
    obtain ⟨old, known, -⟩ := id remains.2
    have ends : ∀ side, CutsVertex [r.carried (of host done)] (record.ends.get side) ↔
        CutsVertex [r] (old.ends.get side) := by
      intro side
      obtain ⟨n, owns, node⟩ := owners side
      exact c.cutsVertex_end_iff known (by cases side <;> exact owns) node
    have cut_iff : (∃ e', hostStrand e = hostStrand e' ∧ CutsEdge [r] e') ↔ CutsEdge [r] e := by
      constructor
      · rintro ⟨e', same, cut⟩
        cases same
        exact cut
      · exact fun cut => ⟨e, rfl, cut⟩
    rw [cut_iff, and_iff_right remains, remains_iff known]
    simp only [ends]
  · refine iff_of_true ⟨?_, ?_⟩ ?_
    · rintro ⟨e, same, -⟩
      cases congrArg Strand.origin same
    · intro side cut
      obtain ⟨n, owns, node⟩ := owners side
      rw [strand_get] at owns
      exact c.not_cutsVertex_end hs hy owns node cut
    · apply mem_links_iff.mpr
      refine .inr ⟨a, s, k, y, ?_, hy, rfl⟩
      rw [List.getElem?_append_left (List.getElem?_eq_some_iff.mp hs).1]
      exact hs

/-- A spared edge keeps its ends. -/
theorem vertexEnds_spared (c : Continued host g done r) {d : EdgeId} {x : Strand}
    (found : (of host done).links[d.slot]? = some x)
    (stays : x ∈ (of host (done ++ [r])).links) :
    (of g [r.carried (of host done)]).vertexEnds (hostStrand d) =
      (of host (done ++ [r])).vertexEnds x := by
  obtain ⟨record, there, owners⟩ := c.end_of_link found
  have remains := (c.spared_edge_iff found).mpr stays
  have uncut := ((remains_iff there).mp remains).2
  have place : ∀ side, (of g [r.carried (of host done)]).vertexAt (.host d side) =
      (of host (done ++ [r])).vertexAt (x.ends.get side) := by
    intro side
    obtain ⟨n, owns, node⟩ := owners side
    have owns' : (of g [r.carried (of host done)]).owner (.host d side) =
        some (.host (record.ends.get side)) :=
      ownerIn_host_iff.mpr ⟨record, there, uncut side, rfl⟩
    have spared : ∀ v, n = .host v → ¬ CutsVertex [r] v := by
      intro v same cut
      exact uncut side ((c.cutsVertex_carried_iff node).mpr ⟨v, same, cut⟩)
    exact c.vertexAt_eq owns' (ownerIn_append owns spared) node
  exact congrArg₂ Ends.mk (place .first) (place .second)

/-- An added edge has the same ends in both. -/
theorem vertexEnds_added (c : Continued host g done r) {k : Nat} {x : AddedEdge D}
    (hx : r.rule.addedEdges[k]? = some x) :
    (of g [r.carried (of host done)]).vertexEnds
        ((r.carried (of host done)).strand g 0 (x, k)) =
      (of host (done ++ [r])).vertexEnds (r.strand host done.length (x, k)) := by
  have place : ∀ side, (of g [r.carried (of host done)]).vertexAt
      ((r.carried (of host done)).socket g 0 k x side) =
        (of host (done ++ [r])).vertexAt (r.socket host done.length k x side) := by
    intro side
    have carried := c.separate_carried.apart.ownerIn_socket (a := 0) rfl
      (show (r.carried (of host done)).rule.addedEdges[k]? = some x from hx) side
    have whole := c.separate.apart.ownerIn_socket (a := done.length) (by simp) hx side
    have anchors := (c.valid.rule.added x (List.mem_of_getElem? hx)).2 side
    cases endpoint : x.ends.get side with
    | matched i =>
      rw [endpoint] at carried whole anchors
      obtain ⟨v, hv, -⟩ := Resolved.vertex_of_anchors c.valid anchors
      have hv' : (r.carried (of host done)).occurrence.vertices[i]? =
          some ((of host done).vertexPlace v) := by
        simp [Resolved.carried, hv]
      simp only [Resolved.node?, hv', Option.map_some] at carried
      simp only [Resolved.node?, hv, Option.map_some] at whole
      exact c.vertexAt_eq carried whole
        (node_at_vertexPlace (c.bound_vertex (List.mem_of_getElem? hv)))
    | created l =>
      rw [endpoint] at carried whole anchors
      simp only [Resolved.node?, anchors.1, if_true] at whole
      have inside : l < (r.carried (of host done)).rule.addedVertices.length := anchors.1
      simp only [Resolved.node?, inside, if_true] at carried
      exact c.vertexAt_eq carried whole ⟨l, rfl, rfl⟩
  exact congrArg₂ Ends.mk (place .first) (place .second)

/-! ## The graph that comes next -/

theorem map_sparedEdges (c : Continued host g done r) :
    ((r.carried (of host done)).sparedEdges g).map (fun d => (of host done).links[d.slot]?) =
      ((of host done).links.filter fun x => x ∈ (of host (done ++ [r])).links).map some := by
  have places := map_filter_handles (of host done).links
    (p := fun d : EdgeId => decide (Remains g [r.carried (of host done)] d))
    (q := fun x => decide (x ∈ (of host (done ++ [r])).links))
    fun d x found => decide_eq_decide.mpr (c.spared_edge_iff found)
  rw [← c.draws.size] at places
  exact places

/-- The link of a spared edge stands at the same place in the larger batch. -/
theorem link_stands (c : Continued host g done r) {d e : EdgeId} {x : Strand}
    (stays : Remains g [r.carried (of host done)] d)
    (there : (of g [r.carried (of host done)]).links[e.slot]? = some (hostStrand d))
    (found : (of host done).links[d.slot]? = some x) :
    (of host (done ++ [r])).links[e.slot]? = some x := by
  have spared := Resolved.mem_sparedEdges_iff.mpr stays
  obtain ⟨i, place⟩ := List.getElem?_of_mem spared
  have inside := (List.getElem?_eq_some_iff.mp place).1
  have here : e.slot = i := by
    obtain ⟨within, -⟩ := List.getElem?_eq_some_iff.mp there
    apply (List.getElem?_inj within c.grounded_carried.links).mp
    rw [there, links_singleton, List.getElem?_append_left (by rw [List.length_map]; exact inside),
      List.getElem?_map, place]
    rfl
  have same := congrArg (fun xs => xs[i]?) c.map_sparedEdges
  simp only [List.getElem?_map, place, Option.map_some, found] at same
  obtain ⟨y, kept, equal⟩ := Option.map_eq_some_iff.mp same.symm
  cases equal
  rw [here, links_append, List.getElem?_append_left (List.getElem?_eq_some_iff.mp kept).1]
  exact kept

theorem record_of_dropped_node (c : Continued host g done r) {n : NodeOrigin}
    (hn : n ∈ (of host done).nodes) (out : n ∉ (of host (done ++ [r])).nodes) :
    (n.record? host).isSome = true := by
  cases n with
  | host v =>
    obtain ⟨record, found⟩ := Graph.contains_iff.mp (c.grounded.hostNode v hn)
    simp [NodeOrigin.record?, found]
  | created p =>
    obtain ⟨i, found⟩ := List.getElem?_of_mem hn
    apply absurd _ out
    rw [← c.spared_vertex_iff (u := ⟨i⟩) found, c.cutsVertex_carried_iff found]
    intro cut
    obtain ⟨v, same, -⟩ := cut
    cases same

theorem record_of_dropped_link {b : Blueprint} {x : Strand}
    (hx : x ∈ (of host done).links) (out : x ∉ (of host (done ++ [r])).links) :
    (b.edgeRecord? host x).isSome = true := by
  rcases mem_links_iff.mp hx with ⟨e, rfl, -, record, found, -⟩ | ⟨a, s, k, y, hs, hy, rfl⟩
  · have there : host.edge? e = some record := found
    simp [edgeRecord?, LinkOrigin.record?, there]
  · apply absurd _ out
    apply mem_links_iff.mpr
    refine .inr ⟨a, s, k, y, ?_, hy, rfl⟩
    rw [List.getElem?_append_left (List.getElem?_eq_some_iff.mp hs).1]
    exact hs

theorem stamp_sparedVertices (c : Continued host g done r)
    {make : StableIndex → VertexId → Vertex D.Node} {counter : StableIndex} :
    stamp (fun u => NodeOrigin.record? g (.host u)) make counter
        ((r.carried (of host done)).sparedVertices g) =
      stamp (NodeOrigin.record? host) (fun index _ => ⟨index, D.freshNode⟩) host.nextVertexIndex
        ((of host done).nodes.filter fun n => n ∈ (of host (done ++ [r])).nodes) := by
  have ids : g.vertexIds = (List.range (of host done).nodes.length).map Handle.mk := by
    rw [← c.draws.order]
    rfl
  unfold Resolved.sparedVertices
  rw [ids]
  apply stamp_handles
  · exact fun u n found => decide_eq_decide.mpr (c.spared_vertex_iff found)
  · exact fun n hn out => c.record_of_dropped_node hn (of_decide_eq_false out)
  · intro u n record _ _ there
    rw [← c.draws.vertices, Array.getElem?_toList] at there
    exact there

theorem edgeRecord?_update (b b' : Blueprint) :
    b'.edgeRecord? host = fun x => (b.edgeRecord? host x).map fun record =>
      { record with ends := b'.vertexEnds x } := by
  funext x
  unfold edgeRecord?
  cases x.origin.record? host <;> rfl

theorem stamp_sparedEdges (c : Continued host g done r)
    {make : StableIndex → EdgeId → Edge D.Arc} {counter : StableIndex} :
    stamp (fun d => (of g [r.carried (of host done)]).edgeRecord? g (hostStrand d)) make counter
        ((r.carried (of host done)).sparedEdges g) =
      stamp ((of host (done ++ [r])).edgeRecord? host)
        (fun index x => ⟨index, (of host (done ++ [r])).vertexEnds x, D.freshArc⟩)
        host.nextEdgeIndex
        ((of host done).links.filter fun x => x ∈ (of host (done ++ [r])).links) := by
  have ids : g.edgeIds = (List.range (of host done).links.length).map Handle.mk := by
    rw [← c.draws.size]
    rfl
  unfold Resolved.sparedEdges
  rw [ids]
  apply stamp_handles
  · exact fun d x found => decide_eq_decide.mpr (c.spared_edge_iff found)
  · exact fun x hx out => record_of_dropped_link hx (of_decide_eq_false out)
  · intro d x record found stays there
    rw [edgeRecord?_update (of host done) (of host (done ++ [r])),
      stamp_update (fun x (record : Edge D.Arc) =>
        { record with ends := (of host (done ++ [r])).vertexEnds x })
        ((of host done).edgeRecord? host)
        (fun index x => ⟨index, (of host done).vertexEnds x, D.freshArc⟩),
      ← c.draws.edges, List.getElem?_map, Option.map_eq_some_iff] at there
    obtain ⟨⟨x', old⟩, zipped, rfl⟩ := there
    obtain ⟨link, edge⟩ := List.getElem?_zip_eq_some.mp zipped
    rw [found] at link
    cases link
    rw [Array.getElem?_toList] at edge
    unfold edgeRecord?
    rw [c.vertexEnds_spared found (of_decide_eq_true stays)]
    change ((g.edge? d).map _) = _
    rw [show g.edge? d = some old from edge]
    rfl

theorem counter_sparedVertices (c : Continued host g done r) :
    counterAfter (NodeOrigin.record? g) g.nextVertexIndex
        (((r.carried (of host done)).sparedVertices g).map NodeOrigin.host) =
      counterAfter (NodeOrigin.record? host) host.nextVertexIndex
        ((of host done).nodes.filter fun n => n ∈ (of host (done ++ [r])).nodes) := by
  rw [counterAfter_filter fun n hn out => c.record_of_dropped_node hn (of_decide_eq_false out),
    ← c.draws.nextVertexIndex]
  apply counterAfter_of_known
  intro n hn
  obtain ⟨u, hu, rfl⟩ := List.mem_map.mp hn
  obtain ⟨record, found⟩ := Graph.contains_iff.mp (Resolved.mem_sparedVertices_iff.mp hu).1
  simp [NodeOrigin.record?, found]

theorem counter_sparedEdges (c : Continued host g done r) :
    counterAfter ((of g [r.carried (of host done)]).edgeRecord? g) g.nextEdgeIndex
        (((r.carried (of host done)).sparedEdges g).map hostStrand) =
      counterAfter ((of host (done ++ [r])).edgeRecord? host) host.nextEdgeIndex
        ((of host done).links.filter fun x => x ∈ (of host (done ++ [r])).links) := by
  have before : counterAfter ((of host (done ++ [r])).edgeRecord? host) host.nextEdgeIndex
      (of host done).links = g.nextEdgeIndex := by
    rw [c.draws.nextEdgeIndex, edgeRecord?_update (of host done) (of host (done ++ [r]))]
    unfold counterAfter
    simp
  rw [counterAfter_filter fun x hx out => record_of_dropped_link hx (of_decide_eq_false out),
    before]
  apply counterAfter_of_known
  intro x hx
  obtain ⟨d, hd, rfl⟩ := List.mem_map.mp hx
  obtain ⟨-, record, found, -⟩ := Resolved.mem_sparedEdges_iff.mp hd
  have there : g.edge? d = some record := found
  simp [edgeRecord?, LinkOrigin.record?, hostStrand, there]

theorem stamp_addedNodes (host : Host D) (a : Nat) (b : Blueprint) (counter : StableIndex) :
    stamp (NodeOrigin.record? g) (fun index _ => ⟨index, D.freshNode⟩) counter
        ((r.carried b).addedNodes 0) =
      stamp (NodeOrigin.record? host) (fun index _ => ⟨index, D.freshNode⟩) counter
        (r.addedNodes a) := by
  unfold Resolved.addedNodes
  rw [stamp_map, stamp_map]
  rfl

theorem stamp_addedLinks (c : Continued host g done r) (counter : StableIndex) :
    stamp ((of g [r.carried (of host done)]).edgeRecord? g)
        (fun index x => ⟨index, (of g [r.carried (of host done)]).vertexEnds x, D.freshArc⟩) counter
        ((r.carried (of host done)).addedLinks g 0) =
      stamp ((of host (done ++ [r])).edgeRecord? host)
        (fun index x => ⟨index, (of host (done ++ [r])).vertexEnds x, D.freshArc⟩) counter
        (r.addedLinks host done.length) := by
  unfold Resolved.addedLinks
  rw [stamp_map, stamp_map]
  apply stamp_congr
  · exact fun _ _ => rfl
  · intro x hx index
    obtain ⟨y, k⟩ := x
    rw [c.vertexEnds_added (List.mem_zipIdx_iff_getElem?.mp hx)]

/-- What the carried application draws is drawn from the larger batch. -/
theorem draws_next (c : Continued host g done r) {g' : Host D}
    (draws : (of g [r.carried (of host done)]).Draws g g') :
    (of host (done ++ [r])).Draws host g' := by
  constructor
  case vertices =>
    rw [draws.vertices, nodes_singleton, stamp_append, stamp_map, c.stamp_sparedVertices,
      c.counter_sparedVertices, stamp_addedNodes host done.length]
    conv_rhs => rw [nodes_append, stamp_append]
  case edges =>
    rw [draws.edges, links_singleton, stamp_append, stamp_map, c.stamp_sparedEdges,
      c.counter_sparedEdges, c.stamp_addedLinks]
    conv_rhs => rw [links_append, stamp_append]
  case nextVertexIndex =>
    rw [draws.nextVertexIndex, nodes_singleton, counterAfter_append, c.counter_sparedVertices]
    conv_rhs => rw [nodes_append, counterAfter_append]
    unfold Resolved.addedNodes
    rw [counterAfter_map, counterAfter_map]
    rfl
  case nextEdgeIndex =>
    rw [draws.nextEdgeIndex, links_singleton, counterAfter_append, c.counter_sparedEdges]
    conv_rhs => rw [links_append, counterAfter_append]
    unfold Resolved.addedLinks
    rw [counterAfter_map, counterAfter_map]
    rfl

end Continued

end GraphSplice
