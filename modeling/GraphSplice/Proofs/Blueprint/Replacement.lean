import GraphSplice.Proofs.Blueprint.Carrying
import GraphSplice.Proofs.Graph.EdgeList

/-!
What a batch whose applications keep apart does to the ends of the edges when it cuts no vertex. All
vertices stay where they are and the added ones follow, application by application; of the edges
the cut ones go, the others come first, and the added ones follow.
-/

namespace GraphSplice

variable {D : Domain} {host g : Host D} {batch : List (Resolved D)} {r : Resolved D}

namespace Resolved

/-- The host edges that the application cuts. -/
def cutEdges (r : Resolved D) : List EdgeId :=
  ((r.rule.edges.zip r.occurrence.edges).filter (·.1.fate.isCut)).map (·.2)

def cutEnds (host : Host D) (r : Resolved D) : List (Ends VertexId) :=
  r.cutEdges.filterMap host.ends?

/-- The vertex that an end of an added edge names, where the added vertices are numbered from
`n`. -/
def vertexOf (r : Resolved D) (n : Nat) : Endpoint → VertexId
  | .matched i => r.occurrence.vertices.getD i .unused
  | .created k => ⟨n + k⟩

def addedEnds (r : Resolved D) (n : Nat) : List (Ends VertexId) :=
  r.rule.addedEdges.map fun x => x.ends.map (r.vertexOf n)

end Resolved

/-- The ends of the edges that the applications add, where the vertices added are numbered
from `n`. -/
def addedEndsFrom : Nat → List (Resolved D) → List (Ends VertexId)
  | _, [] => []
  | n, r :: rest => r.addedEnds n ++ addedEndsFrom (n + r.rule.addedVertices.length) rest

/-- How many vertices the applications add. -/
def addedOrder (batch : List (Resolved D)) : Nat :=
  (batch.flatMap (·.rule.addedVertices)).length

theorem length_addedEndsFrom (batch : List (Resolved D)) (n : Nat) :
    (addedEndsFrom n batch).length = (batch.flatMap (·.rule.addedEdges)).length := by
  induction batch generalizing n with
  | nil => rfl
  | cons r rest ih => simp [addedEndsFrom, Resolved.addedEnds, ih]

/-! ## Edges that are cut -/

theorem length_cutEnds (valid : r.Valid host) : (r.cutEnds host).length = r.cutEdges.length := by
  refine List.filterMap_length_eq_length.mpr fun e he => ?_
  obtain ⟨x, hx, rfl⟩ := List.mem_map.mp he
  obtain ⟨record, found⟩ := valid.edge_of_mem_zip (List.mem_of_mem_filter hx)
  rw [Graph.ends?, found]
  rfl

theorem length_flatMap_cutEnds (valid : ∀ r ∈ batch, r.Valid host) :
    (batch.flatMap (Resolved.cutEnds host)).length = (batch.flatMap Resolved.cutEdges).length := by
  rw [List.length_flatMap, List.length_flatMap,
    List.map_congr_left fun r hr => length_cutEnds (valid r hr)]

theorem mem_cutEdges_iff {e : EdgeId} : e ∈ r.cutEdges ↔ CutsEdge [r] e := by
  rw [cutsEdge_singleton_iff]
  simp only [Resolved.cutEdges, List.mem_map, List.mem_filter]
  constructor
  · rintro ⟨x, ⟨hx, cut⟩, rfl⟩
    exact ⟨x, hx, cut, rfl⟩
  · rintro ⟨x, hx, cut, rfl⟩
    exact ⟨x, ⟨hx, cut⟩, rfl⟩

theorem mem_flatMap_cutEdges_iff {e : EdgeId} :
    e ∈ batch.flatMap Resolved.cutEdges ↔ CutsEdge batch e := by
  rw [List.mem_flatMap, cutsEdge_iff_exists]
  simp only [mem_cutEdges_iff]

namespace Separate

theorem nodup_cutEdges (separate : Separate host batch) :
    (batch.flatMap Resolved.cutEdges).Nodup := by
  rw [List.nodup_flatMap]
  constructor
  · intro r hr
    have bound : ((r.rule.edges.zip r.occurrence.edges).map Prod.snd).Nodup := by
      rw [List.map_snd_zip (separate.valid r hr).edgeArity.le]
      exact (separate.distinct r hr).2
    exact bound.sublist (List.filter_sublist.map _)
  · apply separate.spares.imp
    rintro r s ⟨spares, -⟩ e hr hs
    obtain ⟨x, hx, -, rfl⟩ := cutsEdge_singleton_iff.mp (mem_cutEdges_iff.mp hs)
    exact (spares.edges _ (List.of_mem_zip hx).2).1 (mem_cutEdges_iff.mp hr)

end Separate

namespace Blueprint

variable (steady : ∀ v, ¬ CutsVertex batch v)

include steady

theorem remains_iff_of_steady {e : EdgeId} (inside : e ∈ host.edgeIds) :
    Remains host batch e ↔ ¬ CutsEdge batch e := by
  obtain ⟨record, found⟩ := Graph.edge?_isSome_iff.mpr (Graph.mem_edgeIds.mp inside)
  rw [remains_iff found]
  exact and_iff_left fun side => steady _

/-- The host edges are those that remain and those that are cut. -/
theorem perm_edgeIds (separate : Separate host batch) : host.edgeIds.Perm
    ((host.edgeIds.filter fun e => Remains host batch e) ++ batch.flatMap Resolved.cutEdges) := by
  refine (List.filter_append_perm (fun e => decide (Remains host batch e)) host.edgeIds).symm.trans
    (.append_left _ ?_)
  refine (List.perm_ext_iff_of_nodup (host.nodup_edgeIds.filter _) separate.nodup_cutEdges).mpr ?_
  intro e
  rw [mem_flatMap_cutEdges_iff, List.mem_filter]
  constructor
  · rintro ⟨inside, gone⟩
    by_contra uncut
    have remains := (remains_iff_of_steady steady inside).mpr uncut
    simp [remains] at gone
  · intro cut
    obtain ⟨r, hr, x, hx, -, rfl⟩ := id cut
    have inside : x.2 ∈ host.edgeIds :=
      Graph.mem_edgeIds.mpr (Graph.edge?_isSome_iff.mp ((separate.valid r hr).edge_of_mem_zip hx))
    refine ⟨inside, ?_⟩
    have gone : ¬ Remains host batch x.2 := fun remains => remains.1 cut
    simp [gone]

/-! ## Vertices -/

theorem nodes_of_steady : (of host batch).nodes =
    host.vertexIds.map .host ++ batch.zipIdx.flatMap fun x => x.1.addedNodes x.2 := by
  unfold of hostNodes
  rw [List.filter_eq_self.mpr fun v _ => decide_eq_true (steady v)]

/-- The host vertices stay where they are. -/
theorem node_of_contains {v : VertexId} (contained : host.Contains v) :
    (of host batch).nodes[v.slot]? = some (.host v) := by
  have inside : v.slot < host.order := contained
  rw [nodes_of_steady steady, List.getElem?_append_left (by simpa [Graph.vertexIds] using inside)]
  simp [Graph.vertexIds, inside]

/-- The added vertices follow those of the host. -/
theorem drop_nodes : (of host batch).nodes.drop host.order =
    batch.zipIdx.flatMap fun x => x.1.addedNodes x.2 := by
  rw [nodes_of_steady steady]
  exact List.drop_left' (by simp [Graph.vertexIds])

omit steady in
theorem length_addedNodes (rest : List (Resolved D)) (a : Nat) :
    ((rest.zipIdx a).flatMap fun x => x.1.addedNodes x.2).length = addedOrder rest := by
  induction rest generalizing a with
  | nil => rfl
  | cons r rest ih =>
    rw [List.zipIdx_cons, List.flatMap_cons, List.length_append, ih]
    simp [addedOrder, Resolved.addedNodes]

theorem length_nodes : (of host batch).nodes.length = host.order + addedOrder batch := by
  rw [nodes_of_steady steady, List.length_append, length_addedNodes]
  simp [Graph.vertexIds]

/-! ## Ends of the edges -/

/-- What an end of an added edge names is found at its vertex. -/
theorem node_at_vertexOf (valid : r.Valid host) {a n : Nat}
    (here : ∀ k < r.rule.addedVertices.length,
      (of host batch).nodes[n + k]? = some (.created ⟨r.id, k, a⟩))
    {endpoint : Endpoint} {socket : Option Nat} (anchors : r.rule.Anchors endpoint socket) :
    ∃ m, r.node? a endpoint = some m ∧
      (of host batch).nodes[(r.vertexOf n endpoint).slot]? = some m := by
  cases endpoint with
  | matched i =>
    obtain ⟨v, hv, contained⟩ := Resolved.vertex_of_anchors valid anchors
    refine ⟨.host v, by simp [Resolved.node?, hv], ?_⟩
    simpa [Resolved.vertexOf, hv] using node_of_contains steady contained
  | created k => exact ⟨_, by simp [Resolved.node?, anchors.1], here k anchors.1⟩

theorem vertexEnds_added (separate : Separate host batch)
    (grounded : (of host batch).Grounded host) {a n : Nat} (hr : batch[a]? = some r)
    (here : ∀ k < r.rule.addedVertices.length,
      (of host batch).nodes[n + k]? = some (.created ⟨r.id, k, a⟩)) :
    (r.addedLinks host a).map (of host batch).vertexEnds = r.addedEnds n := by
  have valid := separate.valid r (List.mem_of_getElem? hr)
  unfold Resolved.addedLinks Resolved.addedEnds
  rw [List.map_map]
  conv_rhs => rw [← List.zipIdx_map_fst 0 r.rule.addedEdges, List.map_map]
  refine List.map_congr_left ?_
  rintro ⟨x, k⟩ member
  have hx : r.rule.addedEdges[k]? = some x := List.mem_zipIdx_iff_getElem?.mp member
  have at_side : ∀ side, (of host batch).vertexAt (r.socket host a k x side) =
      r.vertexOf n (x.ends.get side) := by
    intro side
    have anchors := (valid.rule.added x (List.mem_of_getElem? hx)).2 side
    obtain ⟨m, node, there⟩ := node_at_vertexOf steady valid here anchors
    have owns := separate.apart.ownerIn_socket hr hx side
    rw [node] at owns
    exact (separate.detached.vertexAt_eq_iff grounded owns).mpr there
  exact congrArg₂ Ends.mk (at_side .first) (at_side .second)

/-- The added edges of all applications, in order. -/
theorem vertexEnds_allAdded (separate : Separate host batch)
    (grounded : (of host batch).Grounded host) : ∀ (rest : List (Resolved D)) (a n : Nat),
      batch.drop a = rest →
      (of host batch).nodes.drop n = ((rest.zipIdx a).flatMap fun x => x.1.addedNodes x.2) →
      ((rest.zipIdx a).flatMap fun x => x.1.addedLinks host x.2).map (of host batch).vertexEnds =
        addedEndsFrom n rest := by
  intro rest
  induction rest with
  | nil => exact fun _ _ _ _ => rfl
  | cons r rest ih =>
    intro a n batchHere nodesHere
    rw [List.zipIdx_cons, List.flatMap_cons] at nodesHere
    have hr : batch[a]? = some r := by
      have first : (batch.drop a)[0]? = some r := by rw [batchHere]; rfl
      rwa [List.getElem?_drop] at first
    have here : ∀ k < r.rule.addedVertices.length,
        (of host batch).nodes[n + k]? = some (.created ⟨r.id, k, a⟩) := by
      intro k hk
      rw [← List.getElem?_drop, nodesHere,
        List.getElem?_append_left (by simpa [Resolved.addedNodes])]
      simp [Resolved.addedNodes, hk]
    rw [List.zipIdx_cons, List.flatMap_cons, List.map_append,
      vertexEnds_added steady separate grounded hr here, addedEndsFrom, ih]
    · rw [← List.drop_drop, batchHere]
      rfl
    · rw [← List.drop_drop, nodesHere]
      exact List.drop_left' (by simp [Resolved.addedNodes])

/-- The edges that remain keep their ends. -/
theorem vertexEnds_hostLinks (separate : Separate host batch) (consistent : host.Consistent)
    (grounded : (of host batch).Grounded host) :
    (hostLinks host batch).map (of host batch).vertexEnds =
      (host.edgeIds.filter fun e => Remains host batch e).filterMap host.ends? := by
  unfold hostLinks
  rw [List.map_map, ← List.filterMap_eq_map]
  refine List.filterMap_congr fun e he => ?_
  have remains : Remains host batch e := of_decide_eq_true (List.mem_filter.mp he).2
  obtain ⟨record, found, -⟩ := remains.2
  obtain ⟨first, second⟩ := consistent.ends e record found
  have stays {v : VertexId} (contained : host.Contains v) : (of host batch).vertexPlace v = v :=
    vertexPlace_of_node grounded (node_of_contains steady contained)
  have ends := vertexEnds_hostStrand separate grounded remains found
  rw [Ends.map, stays first, stays second] at ends
  unfold Graph.ends?
  rw [found]
  exact congrArg some ends

end Blueprint

/-! ## The result -/

/-- The derivation keeps the vertices of its host and adds others, and replaces the cut edges by the
added ones. -/
structure Replaces (host : Host D) (batch : List (Resolved D)) (d : Derivation D) : Prop where
  order : d.graph.order = host.order + addedOrder batch
  vertex : ∀ v, host.Contains v → d.graph.vertex? v = host.vertex? v
  created : ∀ v, v ∈ d.createdVertices ↔ host.order ≤ v.slot ∧ d.graph.Contains v
  ends : ∃ rest, host.ends.Perm (rest ++ batch.flatMap (Resolved.cutEnds host)) ∧
    d.graph.ends = rest ++ addedEndsFrom host.order batch
  payload : ∀ e record, d.graph.edge? e = some record → e ∈ d.createdEdges ∨
    ∃ e' record', host.edge? e' = some record' ∧ record.payload = record'.payload
  inside : ∀ e ∈ d.createdEdges, e.slot < d.graph.size
  countVertices : d.createdVertices.length = addedOrder batch
  countEdges : d.createdEdges.length = (batch.flatMap (·.rule.addedEdges)).length

theorem Blueprint.Draws.ends_eq {b : Blueprint} (draws : b.Draws host g) :
    g.ends = b.links.map b.vertexEnds := by
  unfold Graph.ends
  rw [draws.edges]
  refine map_stamp (f := Edge.ends) (h := b.vertexEnds) ?_ (fun _ _ => rfl) _ _
  intro x record known
  obtain ⟨_, -, rfl⟩ := Option.map_eq_some_iff.mp known
  rfl

namespace Separate

open Blueprint

variable {d : Derivation D}

theorem replaces (separate : Separate host batch) (steady : ∀ v, ¬ CutsVertex batch v)
    (consistent : host.Consistent) (grounded : (of host batch).Grounded host)
    (yields : (of host batch).Yields host d) : Replaces host batch d := by
  have reads := yields.reads separate.detached grounded
  have leads := separate.detached.leads_eq
  obtain ⟨draws, createdVertices, createdEdges⟩ := yields.draws separate.detached grounded
  have added := vertexEnds_allAdded steady separate grounded batch 0 host.order rfl
    (drop_nodes steady)
  have behind {i : Nat} {n : NodeOrigin} (place : host.order ≤ i)
      (found : (of host batch).nodes[i]? = some n) : n.isCreated = true := by
    obtain ⟨j, rfl⟩ := Nat.exists_eq_add_of_le place
    rw [← List.getElem?_drop, drop_nodes steady] at found
    exact isCreated_of_added (List.mem_of_getElem? found)
  constructor
  case order =>
    rw [draws.order, length_nodes steady]
  case vertex =>
    exact fun v contained => reads.hostVertex v v (leads ▸ node_of_contains steady contained)
  case created =>
    intro v
    rw [reads.createdVertices, leads, draws.contains_iff]
    constructor
    · rintro ⟨n, found, created⟩
      refine ⟨Nat.le_of_not_lt fun inside => ?_, n, found⟩
      cases found.symm.trans (node_of_contains steady inside)
      cases created
    · rintro ⟨place, n, found⟩
      exact ⟨n, found, behind place found⟩
  case ends =>
    refine ⟨(hostLinks host batch).map (of host batch).vertexEnds, ?_, ?_⟩
    · rw [vertexEnds_hostLinks steady separate consistent grounded, Graph.ends_eq_filterMap]
      have parts := (perm_edgeIds steady separate).filterMap host.ends?
      rwa [List.filterMap_append, List.filterMap_flatMap] at parts
    · rw [draws.ends_eq, of, List.map_append]
      exact congrArg _ added
  case payload =>
    intro e record found
    have inside := Graph.edge?_isSome_iff.mp ⟨record, found⟩
    rw [reads.size] at inside
    have link := List.getElem?_eq_getElem inside
    cases origin : ((of host batch).links[e.slot]).origin with
    | host e' =>
      rw [reads.hostEdge e _ e' link origin] at found
      obtain ⟨old, there, rfl⟩ := Option.map_eq_some_iff.mp found
      exact .inr ⟨e', old, there, rfl⟩
    | created p => exact .inl ((reads.mem_createdEdges_iff link).mpr (by rw [origin]; rfl))
  case inside =>
    intro e he
    obtain ⟨x, link, -⟩ := (reads.createdEdges e).mp he
    rw [reads.size]
    exact (List.getElem?_eq_some_iff.mp link).1
  case countVertices =>
    rw [createdVertices, List.length_map, length_positions, nodes_of_steady steady,
      List.countP_append, List.countP_eq_length.mpr fun n hn => isCreated_of_added hn,
      length_addedNodes]
    simp [List.countP_map, Function.comp_def, NodeOrigin.isCreated]
  case countEdges =>
    have none : ∀ x ∈ hostLinks host batch, ¬ x.origin.isCreated = true := by
      intro x hx
      obtain ⟨e, rfl, -⟩ := mem_hostLinks_iff.mp hx
      exact Bool.false_ne_true
    rw [createdEdges, List.length_map, length_positions, of, List.countP_append,
      List.countP_eq_zero.mpr none,
      List.countP_eq_length.mpr fun x hx => origin_isCreated_of_added hx, Nat.zero_add,
      ← length_addedEndsFrom batch host.order, ← added, List.length_map]

end Separate

end GraphSplice
