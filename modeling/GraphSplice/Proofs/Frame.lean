import GraphSplice.Proofs.Independence
import GraphSplice.Proofs.Sequence

/-!
What a batch leaves of its host. The edges that no application writes are the edges of the result
that were not created, in order, and the vertices that no application writes go to vertices of the
result, several of them to one where the batch merges them.
-/

namespace GraphSplice

open Blueprint

variable {D : Domain} {host : Host D} {batch : List (Resolved D)}

/-! ## Footprints of a batch -/

/-- An edge remains exactly if no application writes it. -/
theorem remains_iff_forall_not_written (consistent : host.Consistent) {e : EdgeId}
    (inside : e ∈ host.edgeIds) : Remains host batch e ↔
      ∀ r ∈ batch, e ∉ (Footprint.of host r).edgesWritten := by
  obtain ⟨record, found⟩ := Graph.edge?_isSome_iff.mpr (Graph.mem_edgeIds.mp inside)
  simp only [remains_iff found, Footprint.mem_edgesWritten_iff, not_or]
  constructor
  · rintro ⟨uncut, ends⟩ r hr
    refine ⟨fun cut => uncut (cutsEdge_iff_exists.mpr ⟨r, hr, cut⟩), ?_⟩
    rintro ⟨v, cut, incident⟩
    obtain ⟨record', found', touches⟩ := (Graph.mem_incident_iff consistent).mp incident
    cases found.symm.trans found'
    obtain ⟨side, rfl⟩ := Ends.touches_iff_get.mp touches
    exact ends side (cutsVertex_iff_exists.mpr ⟨r, hr, cut⟩)
  · intro unwritten
    constructor
    · intro cut
      obtain ⟨r, hr, cut⟩ := cutsEdge_iff_exists.mp cut
      exact (unwritten r hr).1 cut
    · intro side cut
      obtain ⟨r, hr, cut⟩ := cutsVertex_iff_exists.mp cut
      exact (unwritten r hr).2 ⟨_, cut, (Graph.mem_incident_iff consistent).mpr
        ⟨record, found, Ends.touches_iff_get.mpr ⟨side, rfl⟩⟩⟩

namespace Blueprint

variable {b : Blueprint} {d : Derivation D} {chosen : List Strand}

/-! ## Vertices -/

open Classical in
/-- The vertex that a host vertex becomes part of, unless it is cut. -/
noncomputable def vertexOf? (b : Blueprint) (v : VertexId) : Option VertexId :=
  if .host v ∈ b.nodes then some ⟨b.leads.findIdx fun m => b.Merged m (.host v)⟩ else none

theorem vertexOf?_isSome_iff {v : VertexId} :
    (b.vertexOf? v).isSome = true ↔ .host v ∈ b.nodes := by
  unfold vertexOf?
  split <;> simp_all

theorem vertexOf?_of_owner {s : Socket} {v : VertexId} (owns : b.owner s = some (.host v))
    (inside : .host v ∈ b.nodes) : b.vertexOf? v = some (b.vertexAt s) := by
  unfold vertexOf? vertexAt
  rw [if_pos inside]
  congr 2
  apply findIdx_congr
  intro m _
  simp [owns]

/-- At the vertex stands the lead of the host vertex. -/
theorem lead_of_vertexOf? {v w : VertexId} (h : b.vertexOf? v = some w) :
    ∃ m, b.leads[w.slot]? = some m ∧ b.Merged m (.host v) := by
  classical
  unfold vertexOf? at h
  split at h
  · next inside =>
    cases h
    obtain ⟨m, hm, merged⟩ := exists_lead inside
    have some : ∃ x ∈ b.leads, decide (b.Merged x (.host v)) = true :=
      ⟨m, hm, decide_eq_true merged⟩
    have below := List.findIdx_lt_length_of_exists some
    refine ⟨_, List.getElem?_eq_getElem below, ?_⟩
    simpa using List.findIdx_getElem (w := below)
  · cases h

theorem vertexOf?_congr {u v : VertexId} (inside : .host u ∈ b.nodes) (inside' : .host v ∈ b.nodes)
    (merged : b.Merged (.host u) (.host v)) : b.vertexOf? u = b.vertexOf? v := by
  have trans : ∀ {l m n : NodeOrigin}, b.Merged l m → b.Merged m n → b.Merged l n :=
    fun h h' => .trans _ _ _ h h'
  unfold vertexOf?
  rw [if_pos inside, if_pos inside']
  congr 2
  apply findIdx_congr
  intro m _
  rw [decide_eq_decide]
  exact ⟨fun h => trans h merged, fun h => trans h merged.symm⟩

/-- The place of a host vertex in its host. -/
def hostSlot : NodeOrigin → Nat
  | .host v => v.slot
  | .created _ => 0

theorem hostNodes_ascending (host : Host D) (batch : List (Resolved D)) :
    ((hostNodes host batch).map hostSlot).Pairwise (· < ·) := by
  have all : (host.vertexIds.map Handle.slot).Pairwise (· < ·) := by
    rw [Graph.vertexIds, List.map_map]
    simpa [Function.comp_def] using List.pairwise_lt_range
  rw [hostNodes, List.map_map]
  exact all.sublist (List.filter_sublist.map _)

/-- The first of the host vertices that become one stands there. -/
theorem exists_foremost_lead {v w : VertexId} (h : (of host batch).vertexOf? v = some w) :
    ∃ u, u.slot ≤ v.slot ∧ (of host batch).vertexOf? u = some w ∧
      (of host batch).leads[w.slot]? = some (.host u) := by
  obtain ⟨m, there, merged⟩ := lead_of_vertexOf? h
  obtain ⟨inside, leads⟩ := mem_leads_iff.mp (List.mem_of_getElem? there)
  have hv := vertexOf?_isSome_iff.mp (h ▸ rfl : ((of host batch).vertexOf? v).isSome = true)
  have before := leads _ hv merged.symm
  have front : .host v ∈ hostNodes host batch := by
    obtain ⟨contained, uncut⟩ := host_mem_nodes_iff.mp hv
    exact mem_hostNodes_iff.mpr ⟨v, rfl, contained, uncut⟩
  have here : m ∈ hostNodes host batch := by
    by_contra behind
    have place := List.idxOf_lt_length_of_mem front
    rw [of, List.idxOf_append_of_mem front, List.idxOf_append_of_notMem behind] at before
    omega
  obtain ⟨u, rfl, -⟩ := mem_hostNodes_iff.mp here
  refine ⟨u, ?_, ?_, there⟩
  · rw [of, List.idxOf_append_of_mem front, List.idxOf_append_of_mem here] at before
    exact (idxOf_le_idxOf_iff hostSlot (hostNodes_ascending host batch) here front).mp before
  · rw [vertexOf?_congr inside hv merged, h]

/-- The vertex keeps what the first of its host vertices was. -/
theorem exists_foremost (reads : (of host batch).Reads host d ((of host batch).kept chosen))
    {v w : VertexId} (h : (of host batch).vertexOf? v = some w) : ∃ u, u.slot ≤ v.slot ∧
      (of host batch).vertexOf? u = some w ∧ d.graph.vertex? w = host.vertex? u := by
  obtain ⟨u, before, placed, there⟩ := exists_foremost_lead h
  exact ⟨u, before, placed, reads.hostVertex w u there⟩

/-! ## Edges -/

/-- The links that become edges are those of the host edges that remain, and created ones. -/
theorem exists_kept_eq (grounded : (of host batch).Grounded host)
    (selects : (of host batch).Selects chosen) :
    ∃ rest, (of host batch).kept chosen = hostLinks host batch ++ rest ∧
      ∀ x ∈ rest, x.origin.isCreated = true := by
  have sub : ((of host batch).kept chosen).Sublist (of host batch).links :=
    List.filter_sublist.trans selects.sublist
  obtain ⟨front, rest, split, hosts, added⟩ := List.sublist_append_iff.mp sub
  have created : ∀ x ∈ rest, x.origin.isCreated = true := fun x hx =>
    origin_isCreated_of_added (added.subset hx)
  refine ⟨rest, ?_, created⟩
  have subset : hostLinks host batch ⊆ front := by
    intro x hx
    obtain ⟨e, rfl, remains⟩ := mem_hostLinks_iff.mp hx
    have link := hostStrand_mem_links_iff.mpr remains
    have member : hostStrand e ∈ (of host batch).kept chosen :=
      mem_kept_iff.mpr ⟨selects.host _ link e rfl, .inl ⟨e, rfl⟩⟩
    rw [split] at member
    rcases List.mem_append.mp member with first | last
    · exact first
    · cases created _ last
  have nodup : (hostLinks host batch).Nodup :=
    grounded.links.sublist (List.sublist_append_left _ _)
  rw [split, hosts.eq_of_length_le (List.subperm_of_subset nodup subset).length_le]

/-- The edges that were not created stand for the edges that remain, in order. -/
theorem forall₂_keptEdges (grounded : (of host batch).Grounded host)
    (selects : (of host batch).Selects chosen)
    (reads : (of host batch).Reads host d ((of host batch).kept chosen)) :
    List.Forall₂ (fun e e' => ((of host batch).kept chosen)[e'.slot]? = some (hostStrand e))
      (host.edgeIds.filter fun e => Remains host batch e) d.keptEdges := by
  obtain ⟨rest, split, created⟩ := exists_kept_eq grounded selects
  have counterparts : d.keptEdges.map (fun e' => ((of host batch).kept chosen)[e'.slot]?) =
      (((of host batch).kept chosen).filter fun x => !x.origin.isCreated).map some := by
    unfold Derivation.keptEdges Graph.edgeIds
    rw [reads.size]
    apply map_filter_handles
    intro e x link
    simp [reads.mem_createdEdges_iff link]
  have unmarked : ((of host batch).kept chosen).filter (fun x => !x.origin.isCreated) =
      hostLinks host batch := by
    have none : rest.filter (fun x => !x.origin.isCreated) = [] :=
      List.filter_eq_nil_iff.mpr fun x hx => by simp [created x hx]
    rw [split, List.filter_append, none, List.append_nil]
    refine List.filter_eq_self.mpr fun x hx => ?_
    obtain ⟨e, rfl, -⟩ := mem_hostLinks_iff.mp hx
    rfl
  rw [unmarked, hostLinks, List.map_map] at counterparts
  have related := List.forall₂_eq_eq_eq ▸ counterparts.symm
  rw [List.forall₂_map_left_iff, List.forall₂_map_right_iff] at related
  exact related.imp fun _ _ same => same.symm

end Blueprint

/-- The edge of the result is the host edge, between the vertices that its ends went to. -/
def Derivation.Carries (d : Derivation D) (host : Host D) (place : VertexId → Option VertexId)
    (e e' : EdgeId) : Prop :=
  ∃ record a b, host.edge? e = some record ∧ place record.ends.first = some a ∧
    place record.ends.second = some b ∧ d.graph.edge? e' = some { record with ends := ⟨a, b⟩ }

theorem Blueprint.carries_of_link {d : Derivation D} {chosen : List Strand}
    (grounded : (of host batch).Grounded host) (selects : (of host batch).Selects chosen)
    (reads : (of host batch).Reads host d ((of host batch).kept chosen)) {e e' : EdgeId}
    (link : ((of host batch).kept chosen)[e'.slot]? = some (hostStrand e)) :
    d.Carries host (of host batch).vertexOf? e e' := by
  have member := (mem_kept_iff.mp (List.mem_of_getElem? link)).1
  have remains := hostStrand_mem_links_iff.mp (selects.sublist.subset member)
  obtain ⟨record, found, -⟩ := remains.2
  have uncut := ((remains_iff found).mp remains).2
  have placed : ∀ side, (of host batch).vertexOf? (record.ends.get side) =
      some ((of host batch).vertexAt (.host e side)) := by
    intro side
    have owns : (of host batch).owner (.host e side) = some (.host (record.ends.get side)) :=
      ownerIn_host_iff.mpr ⟨record, found, uncut side, rfl⟩
    exact vertexOf?_of_owner owns (grounded.owner _ _ owns)
  refine ⟨record, _, _, found, placed .first, placed .second, ?_⟩
  rw [reads.hostEdge e' (hostStrand e) e link rfl, found]
  rfl

namespace Grammar

variable {g : Grammar D}

/-- Footprints say what a batch removes: the edges that no application writes are, in order, the
edges of the result that were not created, and their ends are found through one map that is defined
on the vertices that no application writes. -/
theorem frame_of_derive (grown : g.Grown) (built : host.Built) {applications : List Application}
    (silent : g.SilentOn applications) {state : D.BuildState} {d : Derivation D}
    (h : (g.derive host applications state).result = .ok d) :
    ∃ footprints, List.Forall₂ (fun app f => g.footprint host app = .ok f) applications footprints ∧
      ∃ place : VertexId → Option VertexId,
        (∀ v, (place v).isSome = true ↔
          host.Contains v ∧ ∀ f ∈ footprints, v ∉ f.verticesWritten) ∧
        (∀ v w, place v = some w → ∃ u, u.slot ≤ v.slot ∧ place u = some w ∧
          d.graph.vertex? w = host.vertex? u) ∧
        List.Forall₂ (d.Carries host place)
          (host.edgeIds.filter fun e => ∀ f ∈ footprints, e ∉ f.edgesWritten) d.keptEdges ∧
        ((∀ f ∈ footprints, f.isReadOnly = true) →
          List.Forall₂ (d.Carries host place) host.edgeIds d.keptEdges) := by
  obtain ⟨batch, resolved, -⟩ := derive_ok h
  have outcome := outcome grown built.consistent resolved silent state
  rw [h] at outcome
  obtain _ | _ | _ | ⟨_, fresh, -, -, yields⟩ := outcome
  have valid := fun r hr => (valid_of_resolveAll grown.sound resolved r hr).1
  have grounded := Derivation.grounded_of built.consistent valid state fresh
  obtain ⟨chosen, selects, reads⟩ := yields.exists_reads grounded
  have unwritten : ∀ v, (∀ f ∈ batch.map (Footprint.of host), v ∉ f.verticesWritten) ↔
      ¬ CutsVertex batch v := by
    intro v
    rw [cutsVertex_iff_exists]
    simp [Footprint.mem_verticesWritten_iff]
  have spared : (host.edgeIds.filter fun e =>
      ∀ f ∈ batch.map (Footprint.of host), e ∉ f.edgesWritten) =
      host.edgeIds.filter fun e => Remains host batch e := by
    apply List.filter_congr
    intro e he
    rw [decide_eq_decide, remains_iff_forall_not_written built.consistent he, List.forall_mem_map]
  have carried := (forall₂_keptEdges grounded selects reads).imp fun _ _ link =>
    carries_of_link grounded selects reads link
  refine ⟨batch.map (Footprint.of host), ?_, (of host batch).vertexOf?, ?_,
    fun v w placed => exists_foremost reads placed, spared ▸ carried, ?_⟩
  · rw [List.forall₂_map_right_iff]
    refine (forall₂_of_mapM resolved).imp fun app r resolves => ?_
    unfold footprint
    rw [resolves]
    rfl
  · intro v
    rw [vertexOf?_isSome_iff, host_mem_nodes_iff, unwritten]
  · intro readOnly
    have all : (host.edgeIds.filter fun e => Remains host batch e) = host.edgeIds := by
      rw [← spared]
      refine List.filter_eq_self.mpr fun e _ => decide_eq_true fun f hf written => ?_
      have nothing := readOnly f hf
      unfold Footprint.isReadOnly at nothing
      rw [Bool.and_eq_true, List.isEmpty_iff, List.isEmpty_iff] at nothing
      rw [nothing.2] at written
      cases written
    exact all ▸ carried

open Samples in
/-- Of a path of three edges the first one is split and the last vertex is renewed. -/
theorem frame_of_derive_path :
    let g := pair splitEdge renewLeaf
    let path := shaped 4 [(0, 1), (1, 2), (2, 3)]
    let batch : List Application := [⟨⟨0⟩, ⟨[⟨0⟩, ⟨1⟩], [⟨0⟩]⟩⟩, ⟨⟨1⟩, ⟨[⟨2⟩, ⟨3⟩], [⟨2⟩]⟩⟩]
    ∃ d, (g.derive path batch ()).result = .ok d ∧ ∃ place : VertexId → Option VertexId,
      place ⟨3⟩ = none ∧ List.Forall₂ (d.Carries path place) [⟨1⟩] d.keptEdges := by
  intro g path batch
  obtain ⟨d, derived⟩ := exists_of_isOk (x := (g.derive path batch ()).result) (by decide +kernel)
  refine ⟨d, derived, ?_⟩
  obtain ⟨footprints, each, place, uncut, -, carried, -⟩ :=
    frame_of_derive (grown_pair splitEdge renewLeaf) (built_shaped 4 [(0, 1), (1, 2), (2, 3)])
      (by decide +kernel) derived
  obtain ⟨footprints', all, written, spared⟩ : ∃ footprints,
      batch.mapM (g.footprint path) = .ok footprints ∧ (∃ f ∈ footprints, ⟨3⟩ ∈ f.verticesWritten) ∧
      (path.edgeIds.filter fun e => ∀ f ∈ footprints, e ∉ f.edgesWritten) = [⟨1⟩] :=
    exists_of_check (by decide +kernel)
  obtain rfl : footprints' = footprints := Except.ok.inj (all.symm.trans (mapM_of_forall₂ each))
  refine ⟨place, ?_, spared ▸ carried⟩
  obtain ⟨f, hf, member⟩ := written
  rw [← Option.not_isSome_iff_eq_none, uncut]
  exact fun h => h.2 f hf member

end Grammar

end GraphSplice
