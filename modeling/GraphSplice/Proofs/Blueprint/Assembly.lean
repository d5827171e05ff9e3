import GraphSplice.Proofs.Blueprint.Stamping
import GraphSplice.Proofs.Graph.Consistency
import GraphSplice.Proofs.Wiring.Arena

/-!
What assembly appends to the arenas of a graph: a record for each node, then one for each link that
is not left out.
-/

namespace GraphSplice

namespace Wiring

theorem mem_live_iff {α : Type} {cells : Array (Option α)} {i : Nat} {x : α} :
    (i, x) ∈ live cells ↔ cells[i]?.join = some x := by
  simp only [live, List.mem_filterMap, Option.map_eq_some_iff, Prod.mk.injEq]
  constructor
  · rintro ⟨⟨cell, k⟩, mem, y, rfl, rfl, rfl⟩
    have found : cells.toList[k]? = some (some y) := List.mem_zipIdx_iff_getElem?.mp mem
    rw [← Array.getElem?_toList, found]
    rfl
  · intro found
    refine ⟨(some x, i), ?_, x, rfl, rfl, rfl⟩
    apply List.mem_zipIdx_iff_getElem?.mpr
    rw [Array.getElem?_toList]
    exact Option.join_eq_some_iff.mp found

theorem live_ascending {α : Type} (cells : Array (Option α)) :
    (live cells).Pairwise fun x y => x.1 < y.1 := by
  unfold live
  rw [List.pairwise_filterMap]
  refine (List.pairwise_map.mp (zipIdx_ascending cells.toList 0)).imp ?_
  rintro ⟨x, i⟩ ⟨y, k⟩ less a ha c hc
  obtain ⟨x', -, rfl⟩ := Option.map_eq_some_iff.mp ha
  obtain ⟨y', -, rfl⟩ := Option.map_eq_some_iff.mp hc
  exact less

end Wiring

namespace Assembly

variable {N E : Type} {host : Graph N E}

/-! ## Nodes -/

def nodeItem? (x : JointId × Joint) : Option (JointId × NodeOrigin) :=
  match x.2.kind with
  | .node origin => some (x.1, origin)
  | .socket _ => none

def createdVertex? (x : NodeOrigin × Nat) : Option (VertexId × Provenance) :=
  match x.1 with
  | .host _ => none
  | .created p => some (⟨x.2⟩, p)

theorem createdVertices_eq_positions (xs : List (NodeOrigin × Nat)) :
    (xs.filterMap createdVertex?).map (·.1) =
      ((xs.filter fun x => x.1.isCreated).map (·.2)).map Handle.mk := by
  induction xs with
  | nil => rfl
  | cons x xs ih =>
    obtain ⟨origin, i⟩ := x
    cases origin with
    | host v => exact ih
    | created p => exact congrArg (Handle.mk i :: ·) ih

theorem origin_of_createdVertex? {x : NodeOrigin × Nat} {y : VertexId × Provenance}
    (h : createdVertex? x = some y) : x.1 = .created y.2 := by
  unfold createdVertex? at h
  split at h
  · cases h
  · next p same =>
    cases h
    exact same

/-- What is there after the nodes were placed. -/
structure NodesPlaced (host : Graph N E) (fresh : N) (a : Assembly N E)
    (nodes : List (JointId × NodeOrigin)) (a' : Assembly N E) : Prop where
  vertices : a'.graph.vertices.toList = a.graph.vertices.toList ++
    stamp (NodeOrigin.record? host) (fun index _ => ⟨index, fresh⟩) a.graph.nextVertexIndex
      (nodes.map (·.2))
  nextVertexIndex : a'.graph.nextVertexIndex =
    counterAfter (NodeOrigin.record? host) a.graph.nextVertexIndex (nodes.map (·.2))
  edges : a'.graph.edges = a.graph.edges
  nextEdgeIndex : a'.graph.nextEdgeIndex = a.graph.nextEdgeIndex
  vertexOf : a'.vertexOf =
    a.vertexOf ++ (nodes.zipIdx a.graph.order).map fun x => (x.1.1, ⟨x.2⟩)
  createdVertices : a'.createdVertices = a.createdVertices ++
    ((nodes.map (·.2)).zipIdx a.graph.order).filterMap createdVertex?
  createdEdges : a'.createdEdges = a.createdEdges

theorem NodesPlaced.nil {fresh : N} (a : Assembly N E) : NodesPlaced host fresh a [] a := by
  constructor <;> simp [stamp, counterAfter]

theorem NodesPlaced.order {fresh : N} {a a' : Assembly N E} {nodes : List (JointId × NodeOrigin)}
    (placed : NodesPlaced host fresh a nodes a') :
    a'.graph.order = a.graph.order + nodes.length := by
  have lengths := congrArg List.length placed.vertices
  simpa [Graph.order] using lengths

theorem NodesPlaced.append {fresh : N} {a a₁ a' : Assembly N E}
    {nodes nodes' : List (JointId × NodeOrigin)} (first : NodesPlaced host fresh a nodes a₁)
    (rest : NodesPlaced host fresh a₁ nodes' a') :
    NodesPlaced host fresh a (nodes ++ nodes') a' := by
  constructor
  case vertices =>
    rw [rest.vertices, first.vertices, first.nextVertexIndex, List.append_assoc, List.map_append,
      stamp_append]
  case nextVertexIndex =>
    rw [rest.nextVertexIndex, first.nextVertexIndex, List.map_append, counterAfter_append]
  case edges => rw [rest.edges, first.edges]
  case nextEdgeIndex => rw [rest.nextEdgeIndex, first.nextEdgeIndex]
  case vertexOf =>
    rw [rest.vertexOf, first.vertexOf, first.order, List.zipIdx_append, List.map_append,
      List.append_assoc]
  case createdVertices =>
    rw [rest.createdVertices, first.createdVertices, first.order, List.map_append,
      List.zipIdx_append, List.filterMap_append, List.append_assoc, List.length_map]
  case createdEdges => rw [rest.createdEdges, first.createdEdges]

/-- What is listed as created comes from a created node. -/
theorem NodesPlaced.mem_of_created {fresh : N} {a a' : Assembly N E}
    {nodes : List (JointId × NodeOrigin)} (placed : NodesPlaced host fresh a nodes a')
    (none : a.createdVertices = []) :
    ∀ x ∈ a'.createdVertices, ∃ y ∈ nodes, y.2 = .created x.2 := by
  intro x hx
  rw [placed.createdVertices, none, List.nil_append] at hx
  obtain ⟨z, hz, created⟩ := List.mem_filterMap.mp hx
  obtain ⟨y, hy, same⟩ := List.mem_map.mp (List.fst_mem_of_mem_zipIdx hz)
  exact ⟨y, hy, same.trans (origin_of_createdVertex? created)⟩

theorem placeNode_spec (consistent : host.Consistent) {fresh : N} {a : Assembly N E}
    (counter : host.nextVertexIndex.toNat ≤ a.graph.nextVertexIndex.toNat)
    {x : JointId × Joint} (known : ∀ v, x.2.kind = .node (.host v) → host.Contains v) :
    ∃ a', placeNode host fresh a x = .ok a' ∧
      host.nextVertexIndex.toNat ≤ a'.graph.nextVertexIndex.toNat ∧
      NodesPlaced host fresh a (nodeItem? x).toList a' := by
  obtain ⟨j, ⟨kind, incident⟩⟩ := x
  cases kind with
  | socket origin => exact ⟨a, rfl, counter, .nil a⟩
  | node origin =>
    cases origin with
    | host v =>
      obtain ⟨record, found⟩ := Graph.contains_iff.mp (known v rfl)
      have still : a.graph.nextVertexIndex.advance record.index = a.graph.nextVertexIndex :=
        StableIndex.advance_of_le (Nat.le_trans (consistent.vertexIndex v record found) counter)
      refine ⟨_, by simp only [placeNode, found]; rfl, ?_, ?_⟩
      · simp only [Graph.addVertexAt]
        rw [still]
        exact counter
      · constructor
        · simp [Graph.addVertexAt, nodeItem?, stamp_cons, NodeOrigin.record?, found, stamp]
        · simp only [Graph.addVertexAt]
          rw [still]
          simp [nodeItem?, counterAfter, NodeOrigin.record?, found]
        · rfl
        · rfl
        · rfl
        · simp [nodeItem?, createdVertex?]
        · rfl
    | created p =>
      have moved := StableIndex.advance_self a.graph.nextVertexIndex
      refine ⟨_, rfl, ?_, ?_⟩
      · simp only [Graph.addVertex, Graph.addVertexAt]
        rw [moved, StableIndex.toNat_next]
        have bound := host.nextVertexIndex.toNat_lt
        omega
      · constructor
        · simp [Graph.addVertex, Graph.addVertexAt, nodeItem?, stamp_cons, NodeOrigin.record?,
            stamp]
        · simp only [Graph.addVertex, Graph.addVertexAt]
          rw [moved]
          simp [nodeItem?, counterAfter, NodeOrigin.record?]
        · rfl
        · rfl
        · rfl
        · rfl
        · rfl

theorem placeNodes_spec (consistent : host.Consistent) (fresh : N) (xs : List (JointId × Joint)) :
    ∀ a : Assembly N E, host.nextVertexIndex.toNat ≤ a.graph.nextVertexIndex.toNat →
      (∀ x ∈ xs, ∀ v, x.2.kind = .node (.host v) → host.Contains v) →
      ∃ a', xs.foldlM (placeNode host fresh) a = .ok a' ∧
        NodesPlaced host fresh a (xs.filterMap nodeItem?) a' := by
  induction xs with
  | nil => exact fun a _ _ => ⟨a, rfl, .nil a⟩
  | cons x xs ih =>
    intro a counter known
    obtain ⟨a₁, step, counter₁, placed⟩ :=
      placeNode_spec consistent counter (known x List.mem_cons_self)
    obtain ⟨a', rest, placed'⟩ := ih a₁ counter₁ fun y hy => known y (List.mem_cons_of_mem x hy)
    refine ⟨a', ?_, ?_⟩
    · rw [List.foldlM_cons, step]
      exact rest
    · have both := placed.append placed'
      cases entry : nodeItem? x with
      | none =>
        rw [entry] at both
        rw [List.filterMap_cons_none entry]
        exact both
      | some y =>
        rw [entry] at both
        rw [List.filterMap_cons_some entry]
        exact both

/-! ## Links -/

/-- The record of a host edge between the given vertices. -/
def edgeOf? (host : Graph N E) (x : LinkOrigin × Ends VertexId) : Option (Edge E) :=
  (x.1.record? host).map fun record => { record with ends := x.2 }

def createdEdge? (x : LinkOrigin × Nat) : Option (EdgeId × Provenance) :=
  match x.1 with
  | .host _ => none
  | .created p => some (⟨x.2⟩, p)

theorem createdEdges_eq_positions (xs : List (LinkOrigin × Nat)) :
    (xs.filterMap createdEdge?).map (·.1) =
      ((xs.filter fun x => x.1.isCreated).map (·.2)).map Handle.mk := by
  induction xs with
  | nil => rfl
  | cons x xs ih =>
    obtain ⟨origin, i⟩ := x
    cases origin with
    | host e => exact ih
    | created p => exact congrArg (Handle.mk i :: ·) ih

theorem origin_of_createdEdge? {x : LinkOrigin × Nat} {y : EdgeId × Provenance}
    (h : createdEdge? x = some y) : x.1 = .created y.2 := by
  unfold createdEdge? at h
  split at h
  · cases h
  · next p same =>
    cases h
    exact same

/-- What is there after the links were placed. -/
structure LinksPlaced (host : Graph N E) (fresh : E) (a : Assembly N E)
    (links : List (LinkOrigin × Ends VertexId)) (a' : Assembly N E) : Prop where
  edges : a'.graph.edges.toList = a.graph.edges.toList ++
    stamp (edgeOf? host) (fun index x => ⟨index, x.2, fresh⟩) a.graph.nextEdgeIndex links
  nextEdgeIndex : a'.graph.nextEdgeIndex =
    counterAfter (edgeOf? host) a.graph.nextEdgeIndex links
  vertices : a'.graph.vertices = a.graph.vertices
  nextVertexIndex : a'.graph.nextVertexIndex = a.graph.nextVertexIndex
  vertexOf : a'.vertexOf = a.vertexOf
  createdVertices : a'.createdVertices = a.createdVertices
  createdEdges : a'.createdEdges = a.createdEdges ++
    ((links.map (·.1)).zipIdx a.graph.size).filterMap createdEdge?

theorem LinksPlaced.nil {fresh : E} {a a' : Assembly N E} (graph : a'.graph = a.graph)
    (vertexOf : a'.vertexOf = a.vertexOf) (createdVertices : a'.createdVertices = a.createdVertices)
    (createdEdges : a'.createdEdges = a.createdEdges) : LinksPlaced host fresh a [] a' := by
  constructor <;> simp [stamp, counterAfter, graph, vertexOf, createdVertices, createdEdges]

theorem LinksPlaced.size {fresh : E} {a a' : Assembly N E}
    {links : List (LinkOrigin × Ends VertexId)} (placed : LinksPlaced host fresh a links a') :
    a'.graph.size = a.graph.size + links.length := by
  have lengths := congrArg List.length placed.edges
  simpa [Graph.size] using lengths

theorem LinksPlaced.append {fresh : E} {a a₁ a' : Assembly N E}
    {links links' : List (LinkOrigin × Ends VertexId)} (first : LinksPlaced host fresh a links a₁)
    (rest : LinksPlaced host fresh a₁ links' a') :
    LinksPlaced host fresh a (links ++ links') a' := by
  constructor
  case edges => rw [rest.edges, first.edges, first.nextEdgeIndex, List.append_assoc, stamp_append]
  case nextEdgeIndex => rw [rest.nextEdgeIndex, first.nextEdgeIndex, counterAfter_append]
  case vertices => rw [rest.vertices, first.vertices]
  case nextVertexIndex => rw [rest.nextVertexIndex, first.nextVertexIndex]
  case vertexOf => rw [rest.vertexOf, first.vertexOf]
  case createdVertices => rw [rest.createdVertices, first.createdVertices]
  case createdEdges =>
    rw [rest.createdEdges, first.createdEdges, first.size, List.map_append, List.zipIdx_append,
      List.filterMap_append, List.append_assoc, List.length_map]

/-- What is listed as created comes from a created link. -/
theorem LinksPlaced.mem_of_created {fresh : E} {a a' : Assembly N E}
    {links : List (LinkOrigin × Ends VertexId)} (placed : LinksPlaced host fresh a links a')
    (none : a.createdEdges = []) : ∀ x ∈ a'.createdEdges, ∃ y ∈ links, y.1 = .created x.2 := by
  intro x hx
  rw [placed.createdEdges, none, List.nil_append] at hx
  obtain ⟨z, hz, created⟩ := List.mem_filterMap.mp hx
  obtain ⟨y, hy, same⟩ := List.mem_map.mp (List.fst_mem_of_mem_zipIdx hz)
  exact ⟨y, hy, same.trans (origin_of_createdEdge? created)⟩

theorem addEdgeAt_spec {g : Graph N E} {u v : VertexId} (hu : g.Contains u) (hv : g.Contains v)
    (index : StableIndex) (payload : E) : ∃ g', g.addEdgeAt u v index payload = .ok g' ∧
      g'.edges = g.edges.push ⟨index, ⟨u, v⟩, payload⟩ ∧ g'.vertices = g.vertices ∧
      g'.nextVertexIndex = g.nextVertexIndex ∧
      g'.nextEdgeIndex = g.nextEdgeIndex.advance index := by
  unfold Graph.addEdgeAt
  rw [if_neg (not_not.mpr hu), if_neg (not_not.mpr hv)]
  exact ⟨_, rfl, rfl, rfl, rfl, rfl⟩

theorem placeLink_spec (consistent : host.Consistent) (fresh : E) {a : Assembly N E}
    (counter : host.nextEdgeIndex.toNat ≤ a.graph.nextEdgeIndex.toNat) {u v : VertexId}
    (hu : a.graph.Contains u) (hv : a.graph.Contains v) (origin : LinkOrigin)
    (known : ∀ e, origin = .host e → e.slot < host.size) :
    ∃ a', placeLink host fresh a u v origin = .ok a' ∧
      host.nextEdgeIndex.toNat ≤ a'.graph.nextEdgeIndex.toNat ∧
      LinksPlaced host fresh a [(origin, ⟨u, v⟩)] a' := by
  cases origin with
  | host e =>
    obtain ⟨record, found⟩ := Graph.edge?_isSome_iff.mpr (known e rfl)
    have still : a.graph.nextEdgeIndex.advance record.index = a.graph.nextEdgeIndex :=
      StableIndex.advance_of_le (Nat.le_trans (consistent.edgeIndex e record found) counter)
    obtain ⟨g, added, edges, vertices, nextVertexIndex, nextEdgeIndex⟩ :=
      addEdgeAt_spec hu hv record.index record.payload
    refine ⟨{ a with graph := g }, ?_, ?_, ?_⟩
    · simp only [placeLink, found, added]
      rfl
    · rw [nextEdgeIndex, still]
      exact counter
    · constructor
      · simp [edges, stamp, edgeOf?, LinkOrigin.record?, found]
      · rw [nextEdgeIndex, still]
        simp [counterAfter, edgeOf?, LinkOrigin.record?, found]
      · exact vertices
      · exact nextVertexIndex
      · rfl
      · rfl
      · simp [createdEdge?]
  | created p =>
    obtain ⟨g, added, edges, vertices, nextVertexIndex, nextEdgeIndex⟩ :=
      addEdgeAt_spec hu hv a.graph.nextEdgeIndex fresh
    have moved := StableIndex.advance_self a.graph.nextEdgeIndex
    refine ⟨{ a with graph := g, createdEdges := a.createdEdges ++ [(a.graph.nextEdge, p)] }, ?_,
      ?_, ?_⟩
    · simp only [placeLink, Graph.addEdge, added]
      rfl
    · rw [nextEdgeIndex, moved, StableIndex.toNat_next]
      have bound := host.nextEdgeIndex.toNat_lt
      omega
    · constructor
      · simp [edges, stamp, edgeOf?, LinkOrigin.record?]
      · rw [nextEdgeIndex, moved]
        simp [counterAfter, edgeOf?, LinkOrigin.record?]
      · exact vertices
      · exact nextVertexIndex
      · rfl
      · rfl
      · rfl

/-- The edge to be placed for a wire, where `top` gives the node of a socket and `target` the
vertex. -/
def keptLink? (top : JointId → JointId) (target : JointId → VertexId) (wire : Wire) :
    Option (LinkOrigin × Ends VertexId) :=
  match wire.kind with
  | .attachment => none
  | .link origin =>
    match leftOut? (top wire.ends.first) (top wire.ends.second) origin with
    | some _ => none
    | none => some (origin, wire.ends.map target)

/-- The node of each end of the wire is known, and so is its vertex. -/
def Located (w : Wiring) (top : JointId → JointId) (target : JointId → VertexId)
    (a : Assembly N E) (wire : Wire) : Prop :=
  ∀ origin, wire.kind = .link origin → ∀ side,
    w.nodeOf (wire.ends.get side) = .ok (top (wire.ends.get side)) ∧
    a.vertexOf.lookup (top (wire.ends.get side)) = some (target (wire.ends.get side)) ∧
    a.graph.Contains (target (wire.ends.get side))

variable {w : Wiring} {top : JointId → JointId} {target : JointId → VertexId}

theorem placeWire_spec (consistent : host.Consistent) (fresh : E) {a : Assembly N E}
    (counter : host.nextEdgeIndex.toNat ≤ a.graph.nextEdgeIndex.toNat) {wire : Wire}
    (located : Located w top target a wire)
    (known : ∀ e, wire.kind = .link (.host e) → e.slot < host.size) :
    ∃ a', placeWire w host fresh a wire = .ok a' ∧
      host.nextEdgeIndex.toNat ≤ a'.graph.nextEdgeIndex.toNat ∧
      LinksPlaced host fresh a (keptLink? top target wire).toList a' := by
  obtain ⟨⟨s, t⟩, kind⟩ := wire
  cases kind with
  | attachment => exact ⟨a, rfl, counter, .nil rfl rfl rfl rfl⟩
  | link origin =>
    obtain ⟨nodeS, lookupS, containsS⟩ := located origin rfl .first
    obtain ⟨nodeT, lookupT, containsT⟩ := located origin rfl .second
    simp only [Ends.get] at nodeS lookupS containsS nodeT lookupT containsT
    cases out : leftOut? (top s) (top t) origin with
    | some p =>
      refine ⟨{ a with folded := a.folded ++ [p] }, ?_, counter, ?_⟩
      · simp only [placeWire, nodeS, nodeT, ofMalformation]
        simp only [bind, Except.bind, out]
        rfl
      · simp only [keptLink?, out, Option.toList]
        exact .nil rfl rfl rfl rfl
    | none =>
      obtain ⟨a', placed, counter', links⟩ := placeLink_spec consistent fresh counter
        containsS containsT origin fun e same => known e (by rw [same])
      refine ⟨a', ?_, counter', ?_⟩
      · simp only [placeWire, nodeS, nodeT, ofMalformation]
        simp only [bind, Except.bind, out, lookupS, lookupT]
        exact placed
      · simp only [keptLink?, out, Option.toList]
        exact links

theorem placeWires_spec (consistent : host.Consistent) (fresh : E) (xs : List (WireId × Wire)) :
    ∀ a : Assembly N E, host.nextEdgeIndex.toNat ≤ a.graph.nextEdgeIndex.toNat →
      (∀ x ∈ xs, Located w top target a x.2) →
      (∀ x ∈ xs, ∀ e, x.2.kind = .link (.host e) → e.slot < host.size) →
      ∃ a', xs.foldlM (fun a wire => placeWire w host fresh a wire.2) a = .ok a' ∧
        LinksPlaced host fresh a (xs.filterMap fun x => keptLink? top target x.2) a' := by
  induction xs with
  | nil => exact fun a _ _ _ => ⟨a, rfl, .nil rfl rfl rfl rfl⟩
  | cons x xs ih =>
    intro a counter located known
    obtain ⟨a₁, step, counter₁, placed⟩ := placeWire_spec consistent fresh counter
      (located x List.mem_cons_self) (known x List.mem_cons_self)
    have located₁ : ∀ y ∈ xs, Located w top target a₁ y.2 := by
      intro y hy origin kind side
      obtain ⟨node, lookup, contains⟩ := located y (List.mem_cons_of_mem x hy) origin kind side
      refine ⟨node, ?_, ?_⟩
      · rw [placed.vertexOf]
        exact lookup
      · unfold Graph.Contains Graph.order
        rw [placed.vertices]
        exact contains
    obtain ⟨a', rest, placed'⟩ := ih a₁ counter₁ located₁ fun y hy =>
      known y (List.mem_cons_of_mem x hy)
    refine ⟨a', ?_, ?_⟩
    · rw [List.foldlM_cons, step]
      exact rest
    · have both := placed.append placed'
      cases entry : keptLink? top target x.2 with
      | none =>
        rw [entry] at both
        simp only [List.filterMap_cons, entry]
        exact both
      | some y =>
        rw [entry] at both
        simp only [List.filterMap_cons, entry]
        exact both

end Assembly

end GraphSplice
