import GraphSplice.Proofs.Blueprint.Continuation
import GraphSplice.Proofs.Derivation

/-!
A batch of independent applications against the same applications one after another. Every
application is carried to the graph that the ones before it have left, and the run ends with the
graph that the batch derives in one pass.
-/

namespace GraphSplice

open Blueprint

variable {D : Domain} {host : Host D} {batch done : List (Resolved D)} {r : Resolved D}

/-! ## Runs -/

namespace Derivation

/-- The vertices that were not created. -/
def keptVertices (d : Derivation D) : List VertexId :=
  d.graph.vertexIds.filter fun v => v ∉ d.createdVertices

/-- The edges that were not created. -/
def keptEdges (d : Derivation D) : List EdgeId :=
  d.graph.edgeIds.filter fun e => e ∉ d.createdEdges

end Derivation

/-- A run of applications: the graph so far, and the present handles of the elements of the first
graph. -/
structure Progress (D : Domain) where
  graph : Host D
  vertexNow : VertexId → Option VertexId
  edgeNow : EdgeId → Option EdgeId
  state : D.BuildState

namespace Progress

def start (host : Host D) (state : D.BuildState) : Progress D := ⟨host, some, some, state⟩

/-- The occurrence in the present graph. -/
def carry (p : Progress D) (o : Occurrence) : Option Occurrence := do
  let vertices ← o.vertices.mapM p.vertexNow
  let edges ← o.edges.mapM p.edgeNow
  return ⟨vertices, edges⟩

/-- The run after a derivation. What the application spares, in order, is what the derivation did
not create, in order. -/
def follow (p : Progress D) (r : Resolved D) (d : Derivation D) (state : D.BuildState) :
    Progress D :=
  ⟨d.graph,
    fun v => (p.vertexNow v).bind fun u =>
      ((r.sparedVertices p.graph).zip d.keptVertices).lookup u,
    fun e => (p.edgeNow e).bind fun c => ((r.sparedEdges p.graph).zip d.keptEdges).lookup c,
    state⟩

end Progress

namespace Grammar

/-- Applies one more rule to the present graph. -/
def advance (g : Grammar D) (p : Progress D) (r : Resolved D) : Option (Progress D) := do
  let o ← p.carry r.occurrence
  let report := g.deriveOne p.graph r.id o p.state
  match report.result with
  | .error _ => none
  | .ok d => some (p.follow ⟨r.rule, o⟩ d report.state)

/-- Applies the rules of a batch one after another. -/
def deriveInTurn (g : Grammar D) (host : Host D) (batch : List (Resolved D))
    (state : D.BuildState) : Option (Progress D) :=
  batch.foldlM g.advance (.start host state)

end Grammar

/-! ## Derivations without merging -/

theorem Outcome.derived_of_separate {x : Except ApplyError (Derivation D)}
    (h : Outcome host batch x) (separate : Separate host batch)
    (grounded : (of host batch).Grounded host) :
    ∃ d, x = .ok d ∧ (of host batch).Yields host d := by
  rcases h.fresh_cases separate.fresh with ⟨n, first, -⟩ | ⟨n, -, first, -⟩ | ⟨d, -, -, yields, same⟩
  · exact absurd first.odd separate.detached.balanced
  · exact absurd first (separate.detached.roomy grounded n)
  · exact ⟨d, same, yields⟩

/-! ## The empty batch -/

namespace Blueprint

theorem nodes_nil : (of host []).nodes = host.vertexIds.map NodeOrigin.host := by
  have all : (host.vertexIds.filter fun v => ¬ CutsVertex ([] : List (Resolved D)) v) =
      host.vertexIds := by
    apply List.filter_eq_self.mpr
    intro v _
    simp [CutsVertex]
  simp only [of, hostNodes, all, List.zipIdx_nil, List.flatMap_nil, List.append_nil]

theorem remains_nil {e : EdgeId} (he : e ∈ host.edgeIds) :
    Remains host ([] : List (Resolved D)) e := by
  obtain ⟨record, found⟩ := Graph.edge?_isSome_iff.mpr (Graph.mem_edgeIds.mp he)
  exact ⟨by simp [CutsEdge], record, found, by simp [CutsVertex], by simp [CutsVertex]⟩

theorem links_nil : (of host []).links = host.edgeIds.map hostStrand := by
  have all : (host.edgeIds.filter fun e => Remains host ([] : List (Resolved D)) e) =
      host.edgeIds := by
    apply List.filter_eq_self.mpr
    exact fun e he => decide_eq_true (remains_nil he)
  simp only [of, hostLinks, all, List.zipIdx_nil, List.flatMap_nil, List.append_nil]
  rfl

theorem vertexPlace_nil (grounded : (of host []).Grounded host) {v : VertexId}
    (contained : host.Contains v) : (of host []).vertexPlace v = v := by
  apply vertexPlace_of_node grounded
  rw [nodes_nil, Graph.vertexIds, List.getElem?_map, List.getElem?_map,
    List.getElem?_range contained]
  rfl

theorem edgePlace_nil (grounded : (of host []).Grounded host) {e : EdgeId}
    (inside : e.slot < host.size) : (of host []).edgePlace e = e := by
  apply edgePlace_of_link grounded
  rw [links_nil, Graph.edgeIds, List.getElem?_map, List.getElem?_map, List.getElem?_range inside]
  rfl

theorem separate_nil : Separate host [] := ⟨by simp, by simp, by simp, .nil⟩

theorem edgeRecord?_nil (consistent : host.Consistent) (grounded : (of host []).Grounded host)
    {e : EdgeId} (he : e ∈ host.edgeIds) :
    (of host []).edgeRecord? host (hostStrand e) = host.edge? e := by
  obtain ⟨record, found⟩ := Graph.edge?_isSome_iff.mpr (Graph.mem_edgeIds.mp he)
  obtain ⟨first, second⟩ := consistent.ends e record found
  unfold edgeRecord?
  rw [vertexEnds_hostStrand separate_nil grounded (remains_nil he) found]
  simp only [hostStrand, LinkOrigin.record?, found, Option.map_some, Ends.map,
    vertexPlace_nil grounded first, vertexPlace_nil grounded second]

/-- Without any application the graph itself is drawn. -/
theorem draws_nil (consistent : host.Consistent) (grounded : (of host []).Grounded host) :
    (of host []).Draws host host := by
  have vertexKnown : ∀ v ∈ host.vertexIds, (NodeOrigin.record? host (.host v)).isSome = true :=
    fun v hv => Option.isSome_iff_exists.mpr (Graph.contains_iff.mp (Graph.mem_vertexIds.mp hv))
  have edgeKnown : ∀ e ∈ host.edgeIds,
      ((of host []).edgeRecord? host (hostStrand e)).isSome = true := by
    intro e he
    rw [edgeRecord?_nil consistent grounded he]
    exact Option.isSome_iff_exists.mpr (Graph.edge?_isSome_iff.mpr (Graph.mem_edgeIds.mp he))
  constructor
  case vertices =>
    rw [nodes_nil, stamp_map, stamp_of_known vertexKnown]
    have whole := @filterMap_handles _ .vertex host.vertices.toList
    rw [Array.length_toList] at whole
    simp only [Array.getElem?_toList] at whole
    exact whole.symm
  case edges =>
    rw [links_nil, stamp_map, stamp_of_known edgeKnown,
      List.filterMap_congr fun e he => edgeRecord?_nil consistent grounded he]
    have whole := @filterMap_handles _ .edge host.edges.toList
    rw [Array.length_toList] at whole
    simp only [Array.getElem?_toList] at whole
    exact whole.symm
  case nextVertexIndex => rw [nodes_nil, counterAfter_map, counterAfter_of_known vertexKnown]
  case nextEdgeIndex => rw [links_nil, counterAfter_map, counterAfter_of_known edgeKnown]

end Blueprint

/-! ## One step -/

/-- Derivations of the applications so far have this graph and these handles. -/
structure Reached (host : Host D) (done : List (Resolved D)) (p : Progress D) : Prop where
  consistent : p.graph.Consistent
  draws : (of host done).Draws host p.graph
  vertexNow : ∀ v, .host v ∈ (of host done).nodes →
    p.vertexNow v = some ((of host done).vertexPlace v)
  edgeNow : ∀ e, Remains host done e → p.edgeNow e = some ((of host done).edgePlace e)

namespace Reached

theorem start (consistent : host.Consistent) (state : D.BuildState) :
    Reached host [] (.start host state) := by
  have grounded : (of host []).Grounded host :=
    Derivation.grounded_of consistent separate_nil.valid state
      (@separate_nil D host).fresh
  refine ⟨consistent, draws_nil consistent grounded, ?_, ?_⟩
  · intro v hv
    rw [vertexPlace_nil grounded (host_mem_nodes_iff.mp hv).1]
    rfl
  · intro e he
    obtain ⟨-, record, found, -⟩ := he
    rw [edgePlace_nil grounded (Graph.edge?_isSome_iff.mp ⟨record, found⟩)]
    rfl

end Reached

/-- What an application spares has one counterpart among what its derivation did not create. -/
theorem exists_keptVertex {g : Host D} {d : Derivation D}
    (createdVertices : d.createdVertices = (positions NodeOrigin.isCreated
      (of g [r]).nodes).map Handle.mk)
    (order : d.graph.order = (of g [r]).nodes.length) {u : VertexId}
    (hu : u ∈ r.sparedVertices g) :
    ∃ v, ((r.sparedVertices g).zip d.keptVertices).lookup u = some v ∧
      (of g [r]).nodes[v.slot]? = some (.host u) := by
  have nodup : (r.sparedVertices g).Nodup := (Graph.nodup_vertexIds g).filter _
  apply lookup_zip_of_map nodup hu
  have counterparts := @map_unmarked_handles _ .vertex NodeOrigin.isCreated
    ((r.sparedVertices g).map NodeOrigin.host) (r.addedNodes 0)
    (by simp [NodeOrigin.isCreated]) (by simp [Resolved.addedNodes, NodeOrigin.isCreated])
  rw [← nodes_singleton, ← createdVertices, ← order] at counterparts
  exact counterparts

theorem exists_keptEdge {g : Host D} {d : Derivation D}
    (createdEdges : d.createdEdges = (positions (fun x : Strand => x.origin.isCreated)
      (of g [r]).links).map Handle.mk)
    (size : d.graph.size = (of g [r]).links.length) {c : EdgeId} (hc : c ∈ r.sparedEdges g) :
    ∃ e, ((r.sparedEdges g).zip d.keptEdges).lookup c = some e ∧
      (of g [r]).links[e.slot]? = some (hostStrand c) := by
  have nodup : (r.sparedEdges g).Nodup := (Graph.nodup_edgeIds g).filter _
  apply lookup_zip_of_map nodup hc
  have added : ∀ x ∈ r.addedLinks g 0, x.origin.isCreated = true := by
    intro x hx
    obtain ⟨y, -, rfl⟩ := List.mem_map.mp hx
    rfl
  have counterparts := @map_unmarked_handles _ .edge (fun x : Strand => x.origin.isCreated)
    ((r.sparedEdges g).map hostStrand) (r.addedLinks g 0)
    (by simp [hostStrand, LinkOrigin.isCreated]) added
  rw [← links_singleton, ← createdEdges, ← size] at counterparts
  exact counterparts

namespace Reached

variable {p : Progress D}

theorem carry_eq (reached : Reached host done p) (pending : Pending host p.graph done r) :
    p.carry r.occurrence = some (r.carried (of host done)).occurrence := by
  unfold Progress.carry
  rw [mapM_some_of_forall fun v hv => reached.vertexNow v (pending.bound_vertex hv),
    mapM_some_of_forall fun e he => reached.edgeNow e (pending.bound_edge he)]
  rfl

/-- A host vertex that the application spares is found again. -/
theorem follow_vertex (reached : Reached host done p) (c : Continued host p.graph done r)
    {d : Derivation D} {state : D.BuildState}
    (createdVertices : d.createdVertices = (positions NodeOrigin.isCreated
      (of p.graph [r.carried (of host done)]).nodes).map Handle.mk)
    (order : d.graph.order = (of p.graph [r.carried (of host done)]).nodes.length) {v : VertexId}
    (hv : .host v ∈ (of host (done ++ [r])).nodes) :
    (p.follow (r.carried (of host done)) d state).vertexNow v =
      some ((of host (done ++ [r])).vertexPlace v) := by
  have before : .host v ∈ (of host done).nodes := by
    rw [host_mem_nodes_iff, cutsVertex_append_iff, not_or] at hv
    exact host_mem_nodes_iff.mpr ⟨hv.1, hv.2.1⟩
  have node := node_at_vertexPlace before
  have spared : (of host done).vertexPlace v ∈
      (r.carried (of host done)).sparedVertices p.graph := by
    apply Resolved.mem_sparedVertices_iff.mpr
    exact ⟨c.draws.contains_iff.mpr ⟨_, node⟩, (c.spared_vertex_iff node).mpr hv⟩
  obtain ⟨u, found, there⟩ := exists_keptVertex createdVertices order spared
  obtain ⟨n, here, stands⟩ := c.node_stands there
  obtain rfl := Option.some.inj (node.symm.trans stands)
  rw [vertexPlace_of_node c.grounded_next here, ← found]
  unfold Progress.follow
  dsimp only
  rw [reached.vertexNow v before]
  rfl

/-- A host edge that the application spares is found again. -/
theorem follow_edge (reached : Reached host done p) (c : Continued host p.graph done r)
    {d : Derivation D} {state : D.BuildState}
    (createdEdges : d.createdEdges = (positions (fun x : Strand => x.origin.isCreated)
      (of p.graph [r.carried (of host done)]).links).map Handle.mk)
    (size : d.graph.size = (of p.graph [r.carried (of host done)]).links.length) {e : EdgeId}
    (he : Remains host (done ++ [r]) e) :
    (p.follow (r.carried (of host done)) d state).edgeNow e =
      some ((of host (done ++ [r])).edgePlace e) := by
  have before := (remains_append_iff.mp he).1
  have link := link_at_edgePlace (hostStrand_mem_links_iff.mpr before)
  have stays := (c.spared_edge_iff link).mpr (hostStrand_mem_links_iff.mpr he)
  obtain ⟨u, found, there⟩ := exists_keptEdge createdEdges size
    (Resolved.mem_sparedEdges_iff.mpr stays)
  rw [edgePlace_of_link c.grounded_next (c.link_stands stays there link), ← found]
  unfold Progress.follow
  dsimp only
  rw [reached.edgeNow e before]
  rfl

/-- One more application leads on to the graph of all applications so far. -/
theorem advance {g : Grammar D} (grown : g.Grown) (consistent : host.Consistent)
    (reached : Reached host done p) (separate : Separate host (done ++ [r]))
    (registered : g.rule? r.id = some r.rule) (silent : r.rule.IsSilent) :
    ∃ p', g.advance p r = some p' ∧ Reached host (done ++ [r]) p' := by
  have separate_done := separate.of_sublist (List.sublist_append_left done [r])
  have pending : Pending host p.graph done r :=
    ⟨separate, Derivation.grounded_of consistent separate_done.valid p.state separate_done.fresh,
      reached.draws⟩
  have alone := pending.separate_carried
  have grounded := Derivation.grounded_of reached.consistent alone.valid p.state alone.fresh
  have c : Continued host p.graph done r :=
    ⟨pending, Derivation.grounded_of consistent separate.valid p.state separate.fresh, grounded⟩
  let application : Application := ⟨r.id, (r.carried (of host done)).occurrence⟩
  have resolved : g.resolveAll p.graph [application] = .ok [r.carried (of host done)] := by
    refine Grammar.resolveAll_singleton_iff.mpr ⟨_, ?_, rfl⟩
    rw [Grammar.resolve_eq application registered]
    exact Rule.resolve_of_valid pending.valid_carried
  have silentOn : g.SilentOn [application] := Grammar.silentOn_singleton registered silent
  have outcome := Grammar.outcome grown reached.consistent resolved silentOn p.state
  obtain ⟨d, derived, yields⟩ := outcome.derived_of_separate alone grounded
  obtain ⟨draws, createdVertices, createdEdges⟩ := yields.draws alone.detached grounded
  have taken : g.deriveOne p.graph r.id (r.carried (of host done)).occurrence p.state =
    g.derive p.graph [application] p.state := rfl
  refine ⟨p.follow (r.carried (of host done)) d (g.derive p.graph [application] p.state).state,
    ?_, ?_, c.draws_next draws, ?_, ?_⟩
  · unfold Grammar.advance
    rw [reached.carry_eq pending, Option.bind_eq_bind, Option.bind_some, taken]
    dsimp only
    rw [derived]
    rfl
  · exact Grammar.consistent_of_derive grown silentOn derived
  · exact fun v hv => reached.follow_vertex c createdVertices draws.order hv
  · exact fun e he => reached.follow_edge c createdEdges draws.size he

/-- A whole run leads to the graph of all applications. -/
theorem run {g : Grammar D} (grown : g.Grown) (consistent : host.Consistent)
    {rest : List (Resolved D)} (reached : Reached host done p)
    (separate : Separate host (done ++ rest))
    (registered : ∀ r ∈ rest, g.rule? r.id = some r.rule) (silent : ∀ r ∈ rest, r.rule.IsSilent) :
    ∃ p', rest.foldlM g.advance p = some p' ∧ Reached host (done ++ rest) p' := by
  induction rest generalizing done p with
  | nil =>
    rw [List.append_nil]
    exact ⟨p, rfl, reached⟩
  | cons r rest ih =>
    have regroup : done ++ r :: rest = done ++ [r] ++ rest := by simp
    rw [regroup] at separate ⊢
    have front := separate.of_sublist (List.sublist_append_left (done ++ [r]) rest)
    obtain ⟨next, step, reached'⟩ := reached.advance grown consistent front
      (registered r List.mem_cons_self) (silent r List.mem_cons_self)
    obtain ⟨last, later, reached''⟩ := ih reached' separate
      (fun s hs => registered s (List.mem_cons_of_mem r hs))
      (fun s hs => silent s (List.mem_cons_of_mem r hs))
    refine ⟨last, ?_, reached''⟩
    rw [List.foldlM_cons, step]
    exact later

end Reached

/-- Two graphs drawn from one blueprint are equal. -/
theorem Blueprint.Draws.unique {b : Blueprint} {g g' : Host D} (draws : b.Draws host g)
    (draws' : b.Draws host g') (consistent : g.Consistent) (consistent' : g'.Consistent) :
    g = g' := by
  apply consistent.eq_of_tables consistent'
  · exact Array.toList_inj.mp (draws.vertices.trans draws'.vertices.symm)
  · exact Array.toList_inj.mp (draws.edges.trans draws'.edges.symm)
  · exact draws.nextVertexIndex.trans draws'.nextVertexIndex.symm
  · exact draws.nextEdgeIndex.trans draws'.nextEdgeIndex.symm

namespace Grammar

theorem separate_of_independent {g : Grammar D} (sound : g.Sound) (consistent : host.Consistent)
    {applications : List Application} (resolved : g.resolveAll host applications = .ok batch)
    (distinct : ∀ r ∈ batch, r.Distinct) (splices : ∀ r ∈ batch, r.rule.SplicesApart)
    (independent : batch.Pairwise fun r s =>
      (Footprint.of host r).independent (Footprint.of host s) = true) : Separate host batch := by
  have valid := fun r hr => (valid_of_resolveAll sound resolved r hr).1
  refine ⟨valid, distinct, splices, ?_⟩
  apply independent.imp_of_mem
  intro r s hr hs apart
  refine ⟨Footprint.spares_of_independent consistent (valid s hs) apart, ?_⟩
  apply Footprint.spares_of_independent consistent (valid r hr)
  exact Footprint.independent_symm (Footprint.ordered_of host r) (Footprint.ordered_of host s) apart

theorem rule?_of_resolveAll {g : Grammar D} (sound : g.Sound) {applications : List Application}
    (resolved : g.resolveAll host applications = .ok batch) :
    ∀ r ∈ batch, g.rule? r.id = some r.rule := by
  intro r hr
  obtain ⟨-, app, -, found⟩ := valid_of_resolveAll sound resolved r hr
  have id := (sound.rules app.rule.slot r.rule found).2
  unfold Resolved.id
  rw [id]
  exact found

/-- Independent applications that bind and splice nothing twice derive, in one pass, the graph to
which they lead one after another. -/
theorem derive_eq_deriveInTurn {g : Grammar D} (grown : g.Grown) (built : host.Built)
    {applications : List Application} (resolved : g.resolveAll host applications = .ok batch)
    (silent : g.SilentOn applications) (distinct : ∀ r ∈ batch, r.Distinct)
    (splices : ∀ r ∈ batch, r.rule.SplicesApart)
    (independent : batch.Pairwise fun r s =>
      (Footprint.of host r).independent (Footprint.of host s) = true)
    (state state' : D.BuildState) : ∃ d p,
      (g.derive host applications state).result = .ok d ∧
      g.deriveInTurn host batch state' = some p ∧ d.graph = p.graph := by
  have consistent := built.consistent
  have separate := separate_of_independent grown.sound consistent resolved distinct splices
    independent
  have grounded := Derivation.grounded_of consistent separate.valid state separate.fresh
  obtain ⟨d, derived, yields⟩ :=
    (outcome grown consistent resolved silent state).derived_of_separate separate grounded
  have whole : Separate host ([] ++ batch) := separate
  obtain ⟨p, ran, reached⟩ := (Reached.start consistent state').run grown consistent whole
    (rule?_of_resolveAll grown.sound resolved)
    (isSilent_of_resolveAll grown.sound resolved silent)
  refine ⟨d, p, derived, ran, ?_⟩
  exact (yields.draws separate.detached grounded).1.unique reached.draws
    (consistent_of_derive grown silent derived) reached.consistent

open Samples in
/-- Both edges of a path are split, at once and in turn. -/
theorem derive_eq_deriveInTurn_path : ∃ batch d p,
    (single splitEdge).resolveAll (shaped 3 [(0, 1), (1, 2)])
      [applyAt [0, 1] [0], applyAt [1, 2] [1]] = .ok batch ∧
    ((single splitEdge).derive (shaped 3 [(0, 1), (1, 2)])
      [applyAt [0, 1] [0], applyAt [1, 2] [1]] ()).result = .ok d ∧
    (single splitEdge).deriveInTurn (shaped 3 [(0, 1), (1, 2)]) batch () = some p ∧
    d.graph = p.graph := by
  obtain ⟨batch, resolved, distinct, splices, independent⟩ : ∃ batch,
      (single splitEdge).resolveAll (shaped 3 [(0, 1), (1, 2)])
        [applyAt [0, 1] [0], applyAt [1, 2] [1]] = .ok batch ∧
      (∀ r ∈ batch, r.Distinct) ∧ (∀ r ∈ batch, r.rule.SplicesApart) ∧
      batch.Pairwise fun r s => (Footprint.of (shaped 3 [(0, 1), (1, 2)]) r).independent
        (Footprint.of (shaped 3 [(0, 1), (1, 2)]) s) = true :=
    exists_of_check (by decide +kernel)
  obtain ⟨d, p, derived, ran, same⟩ := derive_eq_deriveInTurn (grown_single _) (built_shaped _ _)
    resolved (by decide +kernel) distinct splices independent () ()
  exact ⟨batch, d, p, resolved, derived, ran, same⟩

end Grammar

end GraphSplice
