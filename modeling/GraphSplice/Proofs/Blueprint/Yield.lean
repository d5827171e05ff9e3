import GraphSplice.Proofs.Blueprint.Classes
import GraphSplice.Proofs.Blueprint.Leads
import GraphSplice.Proofs.Blueprint.Reading

/-!
Assembly of a settled wiring, all of whose sockets have one link, yields what the blueprint
describes.
-/

namespace GraphSplice

open Wiring

namespace Realizes

open Assembly Blueprint

variable {N E : Type} {host : Graph N E} {b : Blueprint} {L : Layout} {w w' : Wiring}
  {p q : Nat → Nat}

/-- The links that are left. -/
def chosen (b : Blueprint) (L : Layout) (w' : Wiring) : List Strand :=
  b.links.filter fun x => w'.isLink (L.link x.origin)

/-- The wire that a link becomes. -/
def wireOf (L : Layout) (p : Nat → Nat) (x : Strand) : WireId × Wire :=
  (L.link x.origin, ⟨(x.ends.map L.socket).map p, .link x.origin⟩)

theorem wire?_of_chosen (r : Realizes host b.owner b.outline L w)
    (settled : Settled w (ownerAt b L) p q w') {x : Strand} (hx : x ∈ chosen b L w') :
    w'.wire? (L.link x.origin) = some (wireOf L p x).2 := by
  obtain ⟨inside, link⟩ := List.mem_filter.mp hx
  obtain ⟨ends, o, found⟩ := isLink_iff.mp link
  obtain ⟨ends', old, rfl⟩ := settled.origin _ _ _ found
  rw [(r.link_iff _ _ _).mpr ⟨x, inside, rfl, rfl, rfl⟩] at old
  cases old
  exact found

theorem mem_chosen_of_wire? (r : Realizes host b.owner b.outline L w)
    (settled : Settled w (ownerAt b L) p q w') {e : WireId} {ends : Ends JointId} {o : LinkOrigin}
    (found : w'.wire? e = some ⟨ends, .link o⟩) :
    ∃ x ∈ chosen b L w', wireOf L p x = (e, ⟨ends, .link o⟩) := by
  obtain ⟨ends', old, rfl⟩ := settled.origin _ _ _ found
  obtain ⟨x, hx, rfl, rfl, rfl⟩ := (r.link_iff _ _ _).mp old
  exact ⟨x, List.mem_filter.mpr ⟨hx, isLink_iff.mpr ⟨_, _, found⟩⟩, rfl⟩

theorem liveLinks_eq (r : Realizes host b.owner b.outline L w)
    (settled : Settled w (ownerAt b L) p q w') :
    w'.liveWires.filter (·.2.kind.isLink) = (chosen b L w').map (wireOf L p) := by
  apply eq_of_ascending (fun x : WireId × Wire => x.1)
  · exact (live_ascending w'.wires).sublist List.filter_sublist
  · rw [List.pairwise_map]
    have ascending := r.linkAscending
    rw [List.pairwise_map] at ascending
    exact ascending.sublist List.filter_sublist
  · rintro ⟨e, ⟨ends, kind⟩⟩
    rw [List.mem_filter, List.mem_map]
    constructor
    · rintro ⟨live, link⟩
      have found : w'.wire? e = some ⟨ends, kind⟩ := mem_live_iff.mp live
      cases kind with
      | attachment => cases link
      | link o => exact r.mem_chosen_of_wire? settled found
    · rintro ⟨x, hx, same⟩
      have found := r.wire?_of_chosen settled hx
      rw [same] at found
      have place : L.link x.origin = e := congrArg Prod.fst same
      rw [place] at found
      cases same
      exact ⟨mem_live_iff.mpr found, rfl⟩

/-! ## One link of each component -/

theorem mem_links_of_chosen {x : Strand} (hx : x ∈ chosen b L w') : x ∈ b.links :=
  List.mem_of_mem_filter hx

theorem beside_of_target (r : Realizes host b.owner b.outline L w) (least : Least w.Beside p)
    {s t : Socket} (hs : (b.owner s).isSome = true) (ht : (b.owner t).isSome = true) :
    p (L.socket s) = p (L.socket t) ↔ b.Beside s t :=
  (least.eq_iff (Wiring.beside_equivalence w)).trans (r.beside_iff hs ht)

theorem Beside.connected {s t : Socket} (h : b.Beside s t) : Connected b.Linked s t := by
  obtain ⟨n, -, walk⟩ := h
  exact ⟨n, walk⟩

/-- Links on the same sockets after merging belong to one component. -/
theorem sameComponent_of_joins (r : Realizes host b.owner b.outline L w) (least : Least w.Beside p)
    {x y : Strand} (hx : x ∈ b.links) (hy : y ∈ b.links)
    (joins : ((y.ends.map L.socket).map p).Joins (p (L.socket x.ends.first))
      (p (L.socket x.ends.second))) : b.SameComponent x y := by
  have target : ∀ (z : Strand), z ∈ b.links → ∀ side, (b.owner (z.ends.get side)).isSome = true :=
    fun z hz side => r.ends z hz side
  rcases joins with same | same
  · simp only [Ends.map, Ends.mk.injEq] at same
    have beside := (r.beside_of_target least (target y hy .first) (target x hx .first)).mp same.1
    exact Beside.connected ((Blueprint.beside_equivalence b).symm beside)
  · simp only [Ends.map, Ends.mk.injEq] at same
    have beside := (r.beside_of_target least (target y hy .first) (target x hx .second)).mp same.1
    have across : Connected b.Linked x.ends.first x.ends.second :=
      .single ⟨x, hx, x.ends.joins_self⟩
    exact across.trans (Beside.connected ((Blueprint.beside_equivalence b).symm beside))

/-- In a component the sides of all links are the same after merging. -/
theorem joins_of_sameComponent (r : Realizes host b.owner b.outline L w) (least : Least w.Beside p)
    {x y : Strand} (hx : x ∈ b.links) (hy : y ∈ b.links) (same : b.SameComponent x y) :
    ((y.ends.map L.socket).map p).Joins (p (L.socket x.ends.first))
      (p (L.socket x.ends.second)) := by
  have target : ∀ (z : Strand), z ∈ b.links → ∀ side, (b.owner (z.ends.get side)).isSome = true :=
    fun z hz side => r.ends z hz side
  have place : ∀ {s t : Socket}, (b.owner s).isSome = true → (b.owner t).isSome = true →
      b.Beside s t → p (L.socket t) = p (L.socket s) :=
    fun hs ht beside => ((r.beside_of_target least hs ht).mpr beside).symm
  rcases beside_of_sameComponent hx hy same with ⟨first, second⟩ | ⟨first, second⟩
  · left
    simp only [Ends.map, Ends.mk.injEq]
    exact ⟨place (target x hx .first) (target y hy .first) first,
      place (target x hx .second) (target y hy .second) second⟩
  · right
    simp only [Ends.map, Ends.mk.injEq]
    exact ⟨place (target x hx .second) (target y hy .first) second,
      place (target x hx .first) (target y hy .second) first⟩

theorem selects_chosen (r : Realizes host b.owner b.outline L w) (proper : b.Proper)
    (settled : Settled w (ownerAt b L) p q w')
    (single : ∀ j, w'.IsSocket j → (w'.links j).length = 1) : b.Selects (chosen b L w') := by
  have unique : ∀ x ∈ b.links, ∃! y, y ∈ chosen b L w' ∧ b.SameComponent x y := by
    intro x hx
    obtain ⟨f, ends, o, found, joins⟩ :=
      settled.cover _ _ _ ((r.link_iff _ _ _).mpr ⟨x, hx, rfl, rfl, rfl⟩)
    obtain ⟨y, hy, same⟩ := r.mem_chosen_of_wire? settled found
    cases same
    refine ⟨y, ⟨hy, r.sameComponent_of_joins settled.leastSocket hx (mem_links_of_chosen hy) joins⟩,
      ?_⟩
    rintro z ⟨hz, component⟩
    have joins' :=
      r.joins_of_sameComponent settled.leastSocket hx (mem_links_of_chosen hz) component
    have listed : ∀ v ∈ chosen b L w',
        ((v.ends.map L.socket).map p).Touches (p (L.socket x.ends.first)) →
        L.link v.origin ∈ w'.links (p (L.socket x.ends.first)) := by
      intro v hv touches
      exact (mem_links_iff settled.sound).mpr ⟨_, _, r.wire?_of_chosen settled hv, touches⟩
    have socket : w'.IsSocket (p (L.socket x.ends.first)) :=
      Wiring.LinkedTo.isSocket settled.sound ⟨_, _, _, found, joins⟩
    obtain ⟨e, only⟩ := List.length_eq_one_iff.mp (single _ socket)
    have first := listed y hy joins.touches.1
    have second := listed z hz joins'.touches.1
    rw [only, List.mem_singleton] at first second
    have same : L.link z.origin = L.link y.origin := second.trans first.symm
    have wireZ := r.wire?_of_chosen settled hz
    have wireY := r.wire?_of_chosen settled hy
    rw [same, wireY] at wireZ
    simp only [wireOf, Option.some.injEq, Wire.mk.injEq, WireKind.link.injEq] at wireZ
    exact proper.distinct z (mem_links_of_chosen hz) y (mem_links_of_chosen hy) wireZ.2.symm
  refine ⟨List.filter_sublist, unique, ?_⟩
  intro x hx e origin
  obtain ⟨y, ⟨hy, n, walk⟩, -⟩ := unique x hx
  have ends := proper.host x hx e origin
  -- the component of a host link is that link
  have closed : ∃ side, y.ends.first = .host e side := by
    refine walk.mem_of_closed (S := fun s => ∃ side, s = .host e side) ?_ ⟨.first, by rw [ends]⟩
    rintro s t ⟨side, rfl⟩ ⟨z, hz, joins⟩
    obtain ⟨i, atEnd⟩ := Ends.touches_iff_get.mp joins.touches.1
    obtain rfl := proper.apart x hx e origin z hz side i atEnd
    rw [ends] at joins
    rcases joins with same | same
    · cases same
      exact ⟨.second, rfl⟩
    · cases same
      exact ⟨.first, rfl⟩
  obtain ⟨side, touches⟩ := closed
  have same := proper.apart x hx e origin y (mem_links_of_chosen hy) side .first touches
  rwa [same] at hy

/-! ## Assembly -/

/-- The node of a socket after merging. -/
noncomputable def topOf (b : Blueprint) (L : Layout) (q : Nat → Nat) (j : Nat) : Nat :=
  q (ownerAt b L j)

noncomputable def targetOf (b : Blueprint) (L : Layout) (q : Nat → Nat) (j : Nat) : VertexId :=
  vertexOfNode b L (topOf b L q j)

theorem targetOf_eq (r : Realizes host b.owner b.outline L w) (balanced : ¬ b.Odd)
    (settled : Settled w (ownerAt b L) p q w') {s : Socket} (hs : (b.owner s).isSome = true) :
    targetOf b L q (p (L.socket s)) = b.vertexAt s := by
  unfold targetOf topOf
  rw [r.owner_target settled hs]
  exact r.vertexOfNode_eq balanced settled hs

open Classical in
theorem keptLink?_wireOf (r : Realizes host b.owner b.outline L w) (balanced : ¬ b.Odd)
    (settled : Settled w (ownerAt b L) p q w') {x : Strand} (hx : x ∈ b.links) :
    keptLink? (topOf b L q) (targetOf b L q) (wireOf L p x).2 =
      if b.Survives x then some (x.origin, b.vertexEnds x) else none := by
  have first : (b.owner x.ends.first).isSome = true := r.ends x hx .first
  have second : (b.owner x.ends.second).isSome = true := r.ends x hx .second
  have ends : ((x.ends.map L.socket).map p).map (targetOf b L q) = b.vertexEnds x := by
    simp only [Ends.map, vertexEnds, r.targetOf_eq balanced settled first,
      r.targetOf_eq balanced settled second]
  have same : topOf b L q (p (L.socket x.ends.first)) = topOf b L q (p (L.socket x.ends.second)) ↔
      b.vertexAt x.ends.first = b.vertexAt x.ends.second := by
    unfold topOf
    rw [r.owner_target settled first, r.owner_target settled second]
    exact (r.vertexAt_eq_iff balanced settled first second).symm
  unfold keptLink? wireOf
  simp only [ends]
  simp only [Ends.map]
  cases origin : x.origin with
  | host e =>
    rw [if_pos (show b.Survives x from .inl ⟨e, origin⟩)]
    rfl
  | created o =>
    have survives : b.Survives x ↔ b.vertexAt x.ends.first ≠ b.vertexAt x.ends.second := by
      simp [Survives, origin]
    simp only [leftOut?]
    by_cases loop : b.vertexAt x.ends.first = b.vertexAt x.ends.second
    · rw [if_pos (same.mpr loop), if_neg (fun h => survives.mp h loop)]
    · rw [if_neg (fun h => loop (same.mp h)), if_pos (survives.mpr loop)]

open Classical in
/-- The edges to be placed are the links that survive. -/
theorem keptLinks_eq (r : Realizes host b.owner b.outline L w) (balanced : ¬ b.Odd)
    (settled : Settled w (ownerAt b L) p q w') :
    (w'.liveWires.filterMap fun x => keptLink? (topOf b L q) (targetOf b L q) x.2) =
      ((chosen b L w').filter fun x => b.Survives x).map fun x => (x.origin, b.vertexEnds x) := by
  have attachments : ∀ x : WireId × Wire, x.2.kind.isLink = false →
      keptLink? (topOf b L q) (targetOf b L q) x.2 = none := by
    rintro ⟨e, ⟨ends, kind⟩⟩ h
    cases kind with
    | attachment => rfl
    | link o => cases h
  rw [← filterMap_filter_of_none _ attachments, r.liveLinks_eq settled, List.filterMap_map,
    ← List.filterMap_eq_map, List.filterMap_filter]
  apply List.filterMap_congr
  intro x hx
  rw [Function.comp_apply, r.keptLink?_wireOf balanced settled (mem_links_of_chosen hx)]
  simp

theorem grounded (r : Realizes host b.owner b.outline L w) (proper : b.Proper) :
    b.Grounded host where
  nodes := by
    have ascending := r.nodeAscending
    rw [List.pairwise_map] at ascending
    apply ascending.imp
    rintro m n less rfl
    exact Nat.lt_irrefl _ less
  links := r.links_nodup
  owner _ _ owns := (r.mem_nodes owns).1
  ends := r.ends
  hostNode v hv := (r.hostNode v hv).1
  hostLink x hx e origin := by
    have present := r.ends x hx .first
    rw [proper.host x hx e origin] at present
    exact (r.hostSocket e .first present).1

/-- After the nodes were placed the assembly finds the vertices of every link. -/
theorem located (r : Realizes host b.owner b.outline L w) (balanced : ¬ b.Odd)
    (settled : Settled w (ownerAt b L) p q w')
    (single : ∀ j, w'.IsSocket j → (w'.links j).length = 1) {fresh : N} {start a : Assembly N E}
    (empty : start.graph.order = 0) (none : start.vertexOf = [])
    (placed : NodesPlaced host fresh start (b.leads.map fun n => (L.node n, n)) a)
    {x : WireId × Wire} (hx : x ∈ w'.liveWires) :
    Located w' (topOf b L q) (targetOf b L q) a x.2 := by
  obtain ⟨e, ⟨ends, kind⟩⟩ := x
  rintro o rfl side
  have found : w'.wire? e = some ⟨ends, .link o⟩ := mem_live_iff.mp hx
  obtain ⟨x, hx', same⟩ := r.mem_chosen_of_wire? settled found
  cases same
  have hs : (b.owner (x.ends.get side)).isSome = true := r.ends x (mem_links_of_chosen hx') side
  have end' : (((x.ends.map L.socket).map p).get side) = p (L.socket (x.ends.get side)) := by
    rw [Ends.get_map, Ends.get_map]
  have socket : w'.IsSocket (p (L.socket (x.ends.get side))) := by
    obtain ⟨first, second⟩ := settled.sound.link _ _ _ found
    cases side with
    | first => exact first
    | second => exact second
  have lead : ∃ m ∈ b.leads, L.node m = topOf b L q (p (L.socket (x.ends.get side))) := by
    unfold topOf
    rw [r.owner_target settled hs]
    exact r.exists_lead_of_socket balanced settled hs
  simp only [end']
  refine ⟨?_, ?_, ?_⟩
  · rw [settled.nodeOf_eq socket, if_pos (single _ socket)]
    rfl
  · rw [placed.vertexOf, none, empty, List.nil_append, List.zipIdx_map, List.map_map]
    have found := lookup_zipIdx (@Handle.mk .vertex) lead 0
    rw [Nat.zero_add] at found
    exact found
  · rw [r.targetOf_eq balanced settled hs]
    unfold Graph.Contains
    rw [placed.order, empty, List.length_map, Nat.zero_add]
    exact r.vertexAt_lt balanced settled hs

end Realizes

/-- What is listed as created is credited to nodes and links of the blueprint. -/
structure Blueprint.Credits {N E : Type} (b : Blueprint) (a : Assembly N E) : Prop where
  vertices : ∀ x ∈ a.createdVertices, .created x.2 ∈ b.nodes
  edges : ∀ x ∈ a.createdEdges, ∃ y ∈ b.links, y.origin = .created x.2

/-- The edges of the assembly are the chosen links that are kept, and each created vertex and edge is
credited to the added element that stands there. -/
structure Blueprint.Attributes {D : Domain} (b : Blueprint) (host : Host D) (links : List Strand)
    (a : Assembly D.Node D.Arc) : Prop where
  selects : b.Selects links
  edges : a.graph.edges.toList =
    stamp (b.edgeRecord? host) (fun index x => ⟨index, b.vertexEnds x, D.freshArc⟩)
      host.nextEdgeIndex (b.kept links)
  createdVertices : a.createdVertices = b.leads.zipIdx.filterMap Assembly.createdVertex?
  createdEdges : a.createdEdges =
    ((b.kept links).map (·.origin)).zipIdx.filterMap Assembly.createdEdge?

theorem Blueprint.Attributes.createdEdges_eq {D : Domain} {b : Blueprint} {host : Host D}
    {links : List Strand} {a : Assembly D.Node D.Arc} (h : b.Attributes host links a) :
    a.createdEdges.map (·.1) =
      (positions (·.origin.isCreated) (b.kept links)).map Handle.mk := by
  rw [h.createdEdges, Assembly.createdEdges_eq_positions]
  exact congrArg (List.map Handle.mk) (positions_map Strand.origin LinkOrigin.isCreated _)

open Classical in
/-- An assembly in which the leads and the surviving links of the blueprint were placed, in this
order. -/
structure Blueprint.PlacedIn {D : Domain} (b : Blueprint) (host : Host D) (L : Layout)
    (links : List Strand) (a₁ a : Assembly D.Node D.Arc) : Prop where
  nodes : Assembly.NodesPlaced host D.freshNode ⟨host.emptyAfter, [], [], [], []⟩
    (b.leads.map fun n => (L.node n, n)) a₁
  links : Assembly.LinksPlaced host D.freshArc a₁
    ((links.filter fun x => b.Survives x).map fun x => (x.origin, b.vertexEnds x)) a

namespace Blueprint.PlacedIn

variable {D : Domain} {host : Host D} {b : Blueprint} {L : Layout} {links : List Strand}
  {a₁ a : Assembly D.Node D.Arc}

theorem attributes (placed : b.PlacedIn host L links a₁ a) (selects : b.Selects links) :
    b.Attributes host links a := by
  obtain ⟨nodes, links⟩ := placed
  refine ⟨selects, ?edges, ?createdVertices, ?createdEdges⟩
  case edges =>
    simp only [links.edges, nodes.edges, nodes.nextEdgeIndex, stamp_map]
    rfl
  case createdVertices =>
    simp only [links.createdVertices, nodes.createdVertices]
    rw [List.map_map]
    have ids : b.leads.map (Prod.snd ∘ fun n => (L.node n, n)) = b.leads := List.map_id _
    rw [ids]
    rfl
  case createdEdges =>
    have none : a₁.graph.size = 0 := congrArg Array.size nodes.edges
    simp only [links.createdEdges, nodes.createdEdges, none, List.map_map]
    rfl

theorem yields (placed : b.PlacedIn host L links a₁ a) (selects : b.Selects links) :
    b.Yields host ⟨a.graph, a.createdVertices.map (·.1), a.createdEdges.map (·.1)⟩ := by
  have attributes := placed.attributes selects
  obtain ⟨nodes, links⟩ := placed
  refine {
    vertices := ?vertices
    createdVertices := ?createdVertices
    nextVertexIndex := ?nextVertexIndex
    edges := ⟨_, selects, attributes.edges, attributes.createdEdges_eq, ?nextEdgeIndex⟩ }
  case vertices =>
    simp only [links.vertices, nodes.vertices, List.map_map]
    exact congrArg (stamp _ _ _) (List.map_id _)
  case createdVertices =>
    simp only [attributes.createdVertices]
    exact Assembly.createdVertices_eq_positions _
  case nextVertexIndex =>
    simp only [links.nextVertexIndex, nodes.nextVertexIndex, List.map_map]
    exact congrArg (counterAfter _ _) (List.map_id _)
  case nextEdgeIndex =>
    simp only [links.nextEdgeIndex, nodes.nextEdgeIndex, counterAfter_map]
    rfl

theorem credits (placed : b.PlacedIn host L links a₁ a) (known : ∀ x ∈ links, x ∈ b.links) :
    b.Credits a where
  vertices x hx := by
    rw [placed.links.createdVertices] at hx
    obtain ⟨y, hy, created⟩ := placed.nodes.mem_of_created rfl x hx
    obtain ⟨n, hn, rfl⟩ := List.mem_map.mp hy
    exact created ▸ (Blueprint.mem_leads_iff.mp hn).1
  edges x hx := by
    obtain ⟨y, hy, created⟩ := placed.links.mem_of_created placed.nodes.createdEdges x hx
    obtain ⟨z, hz, rfl⟩ := List.mem_map.mp hy
    exact ⟨z, known z (List.mem_of_mem_filter hz), created⟩

end Blueprint.PlacedIn

/-- A settled wiring without crowded sockets is assembled. -/
theorem Realizes.assembles {D : Domain} {host : Host D} {b : Blueprint} {L : Layout} {w w' : Wiring}
    {p q : Nat → Nat} (r : Realizes host b.owner b.outline L w) (consistent : host.Consistent)
    (proper : b.Proper) (balanced : ¬ b.Odd) (settled : Settled w (ownerAt b L) p q w')
    (fine : w'.malformation? = none)
    (single : ∀ j, w'.IsSocket j → (w'.links j).length = 1) :
    ∃ a₁ a, w'.assemble host D.freshNode D.freshArc = .ok a ∧
      b.PlacedIn host L (chosen b L w') a₁ a := by
  let start : Assembly D.Node D.Arc := ⟨host.emptyAfter, [], [], [], []⟩
  have knownNodes : ∀ x ∈ w'.liveJoints, ∀ v, x.2.kind = .node (.host v) → host.Contains v := by
    intro x hx v kind
    have found : w'.kind? x.1 = some (.node (.host v)) := by
      rw [kind?, Option.map_eq_some_iff]
      exact ⟨x.2, mem_live_iff.mp hx, kind⟩
    have node := ((r.node_iff _ _).mp ((settled.node _ _).mp found).1).1
    exact (r.hostNode v node).1
  obtain ⟨a₁, nodesOk, nodes⟩ := Assembly.placeNodes_spec consistent D.freshNode
    w'.liveJoints start (Nat.le_refl _) knownNodes
  rw [r.nodeItems_eq balanced settled] at nodes
  have knownLinks : ∀ x ∈ w'.liveWires, ∀ e, x.2.kind = .link (.host e) → e.slot < host.size := by
    rintro ⟨i, ⟨ends, kind⟩⟩ hx e rfl
    obtain ⟨x, hx', same⟩ := r.mem_chosen_of_wire? settled (mem_live_iff.mp hx)
    simp only [Realizes.wireOf, Prod.mk.injEq, Wire.mk.injEq, WireKind.link.injEq] at same
    exact (r.grounded proper).hostLink x (mem_links_of_chosen hx') e same.2.2
  obtain ⟨a, linksOk, links⟩ := Assembly.placeWires_spec consistent D.freshArc
    w'.liveWires a₁ (by rw [nodes.nextEdgeIndex]; exact Nat.le_refl _)
    (fun x hx => r.located balanced settled single rfl rfl nodes hx) knownLinks
  rw [r.keptLinks_eq balanced settled] at links
  refine ⟨a₁, a, ?_, nodes, links⟩
  unfold assemble
  rw [fine]
  change (w'.liveJoints.foldlM (Assembly.placeNode host D.freshNode) start >>= fun nodes =>
    w'.liveWires.foldlM (fun a wire => Assembly.placeWire w' host D.freshArc a wire.2) nodes) = _
  rw [nodesOk]
  exact linksOk

/-- What is assembled is what the blueprint describes. -/
theorem Realizes.yields {D : Domain} {host : Host D} {b : Blueprint} {L : Layout} {w w' : Wiring}
    {p q : Nat → Nat} (r : Realizes host b.owner b.outline L w) (consistent : host.Consistent)
    (proper : b.Proper) (balanced : ¬ b.Odd) (settled : Settled w (ownerAt b L) p q w')
    (fine : w'.malformation? = none)
    (single : ∀ j, w'.IsSocket j → (w'.links j).length = 1) :
    ∃ a, w'.assemble host D.freshNode D.freshArc = .ok a ∧
      b.Yields host ⟨a.graph, a.createdVertices.map (·.1), a.createdEdges.map (·.1)⟩ ∧
      b.Credits a ∧ ∃ links, b.Attributes host links a := by
  obtain ⟨a₁, a, assembled, placed⟩ := r.assembles consistent proper balanced settled fine single
  have selects := r.selects_chosen proper settled single
  exact ⟨a, assembled, placed.yields selects, placed.credits fun _ => mem_links_of_chosen, _,
    placed.attributes selects⟩

end GraphSplice
