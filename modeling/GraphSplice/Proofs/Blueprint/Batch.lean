import GraphSplice.Proofs.Application
import GraphSplice.Proofs.Blueprint.Structure

/-!
What is in the blueprint of a valid batch.
-/

namespace GraphSplice

variable {D : Domain} {host : Host D} {batch : List (Resolved D)}

namespace Resolved

variable {r : Resolved D}

theorem vertex_of_anchors (valid : r.Valid host) {i : Nat} {socket : Option Nat}
    (anchors : r.rule.Anchors (.matched i) socket) :
    ∃ v, r.occurrence.vertices[i]? = some v ∧ host.Contains v := by
  obtain ⟨⟨vertex, found, -⟩, -⟩ := anchors
  have inside : i < r.occurrence.vertices.length := by
    rw [valid.arity]
    exact (List.getElem?_eq_some_iff.mp found).1
  exact ⟨_, List.getElem?_eq_getElem inside, valid.vertices _ (List.getElem_mem inside)⟩

/-- The socket that a cut edge leaves at a bound vertex. -/
theorem spliced?_of_anchors (valid : r.Valid host) {i c : Nat}
    (anchors : r.rule.Anchors (.matched i) (some c)) {v : VertexId}
    (hv : r.occurrence.vertices[i]? = some v) : ∃ e record side, r.occurrence.edges[c]? = some e ∧
      host.edge? e = some record ∧ record.ends.sideAt? v = some side ∧
      r.spliced? host (.matched i) (some c) = some (.host e side) := by
  obtain ⟨edge, found, -, touches⟩ := anchors.2 c rfl
  have inside : c < r.occurrence.edges.length := by
    rw [valid.edgeArity]
    exact (List.getElem?_eq_some_iff.mp found).1
  have he := List.getElem?_eq_getElem inside
  obtain ⟨record, ends, there, bound, joins⟩ := valid.edges c edge _ found he
  have touched : record.ends.Touches v := by
    obtain ⟨side, same⟩ := Ends.touches_iff_get.mp touches
    have at' := Rule.boundEnds?_eq_some_iff.mp bound side
    rw [same, hv, Option.some.injEq] at at'
    rw [at']
    cases side
    · exact joins.touches.1
    · exact joins.touches.2
  obtain ⟨side, located⟩ : ∃ side, record.ends.sideAt? v = some side := by
    unfold Ends.sideAt?
    rcases touched with same | same
    · exact ⟨.first, by rw [if_pos same]⟩
    · by_cases first : record.ends.first = v
      · exact ⟨.first, by rw [if_pos first]⟩
      · exact ⟨.second, by rw [if_neg first, if_pos same]⟩
  refine ⟨_, record, side, he, there, located, ?_⟩
  simp [spliced?, hv, he, there, located]

end Resolved

namespace Blueprint

theorem mem_hostNodes_iff {n : NodeOrigin} :
    n ∈ hostNodes host batch ↔ ∃ v, n = .host v ∧ host.Contains v ∧ ¬ CutsVertex batch v := by
  simp only [hostNodes, List.mem_map, List.mem_filter, Graph.mem_vertexIds, decide_eq_true_eq]
  constructor
  · rintro ⟨v, ⟨contained, kept⟩, rfl⟩
    exact ⟨v, rfl, contained, kept⟩
  · rintro ⟨v, rfl, contained, kept⟩
    exact ⟨v, ⟨contained, kept⟩, rfl⟩

theorem ownerIn_host_iff {e : EdgeId} {side : Side} {n : NodeOrigin} :
    ownerIn host batch (.host e side) = some n ↔ ∃ record, host.edge? e = some record ∧
      ¬ CutsVertex batch (record.ends.get side) ∧ n = .host (record.ends.get side) := by
  simp only [ownerIn, Option.bind_eq_bind, Option.bind_eq_some_iff]
  constructor
  · rintro ⟨record, found, h⟩
    split at h
    · cases h
    · next kept =>
      cases h
      exact ⟨record, found, kept, rfl⟩
  · rintro ⟨record, found, kept, rfl⟩
    exact ⟨record, found, by rw [if_neg kept]⟩

theorem remains_iff {e : EdgeId} {record : Edge D.Arc}
    (found : host.edge? e = some record) : Remains host batch e ↔
      ¬ CutsEdge batch e ∧ ∀ side, ¬ CutsVertex batch (record.ends.get side) := by
  unfold Remains
  apply and_congr Iff.rfl
  constructor
  · intro remains
    obtain ⟨record', found', first, second⟩ := remains
    rw [found] at found'
    cases found'
    intro side
    cases side with
    | first => exact first
    | second => exact second
  · exact fun uncut => ⟨record, found, uncut .first, uncut .second⟩

theorem mem_hostLinks_iff {x : Strand} : x ∈ hostLinks host batch ↔
    ∃ e, x = ⟨.host e, ⟨.host e .first, .host e .second⟩⟩ ∧ Remains host batch e := by
  simp only [hostLinks, List.mem_map, List.mem_filter, decide_eq_true_eq]
  constructor
  · rintro ⟨e, ⟨-, remains⟩, rfl⟩
    exact ⟨e, rfl, remains⟩
  · rintro ⟨e, rfl, remains⟩
    obtain ⟨-, record, found, -⟩ := id remains
    exact ⟨e, ⟨Graph.mem_edgeIds.mpr (Graph.edge?_isSome_iff.mp ⟨record, found⟩), remains⟩, rfl⟩

theorem mem_nodes_iff {n : NodeOrigin} : n ∈ (Blueprint.of host batch).nodes ↔
    (∃ v, n = .host v ∧ host.Contains v ∧ ¬ CutsVertex batch v) ∨
    ∃ (a : Nat) (r : Resolved D) (k : Nat), batch[a]? = some r ∧
      k < r.rule.addedVertices.length ∧ n = .created ⟨r.id, k, a⟩ := by
  simp only [Blueprint.of, List.mem_append, mem_hostNodes_iff, List.mem_flatMap,
    Resolved.addedNodes, List.mem_map, List.mem_range]
  apply or_congr Iff.rfl
  constructor
  · rintro ⟨⟨r, a⟩, hr, k, hk, rfl⟩
    exact ⟨a, r, k, List.mem_zipIdx_iff_getElem?.mp hr, hk, rfl⟩
  · rintro ⟨a, r, k, hr, hk, rfl⟩
    exact ⟨(r, a), List.mem_zipIdx_iff_getElem?.mpr hr, k, hk, rfl⟩

theorem host_mem_nodes_iff {v : VertexId} :
    .host v ∈ (Blueprint.of host batch).nodes ↔ host.Contains v ∧ ¬ CutsVertex batch v := by
  rw [mem_nodes_iff]
  constructor
  · intro mem
    rcases mem with ⟨u, same, contained, uncut⟩ | ⟨_, _, _, _, _, same⟩
    · cases same
      exact ⟨contained, uncut⟩
    · cases same
  · exact fun h => .inl ⟨v, rfl, h.1, h.2⟩

theorem mem_links_iff {x : Strand} : x ∈ (Blueprint.of host batch).links ↔
    (∃ e, x = ⟨.host e, ⟨.host e .first, .host e .second⟩⟩ ∧ Remains host batch e) ∨
    ∃ (a : Nat) (r : Resolved D) (k : Nat) (y : AddedEdge D), batch[a]? = some r ∧
      r.rule.addedEdges[k]? = some y ∧ x = r.strand host a (y, k) := by
  simp only [Blueprint.of, List.mem_append, mem_hostLinks_iff, List.mem_flatMap,
    Resolved.addedLinks, List.mem_map]
  apply or_congr Iff.rfl
  constructor
  · rintro ⟨⟨r, a⟩, hr, ⟨y, k⟩, hy, rfl⟩
    exact ⟨a, r, k, y, List.mem_zipIdx_iff_getElem?.mp hr, List.mem_zipIdx_iff_getElem?.mp hy, rfl⟩
  · rintro ⟨a, r, k, y, hr, hy, rfl⟩
    exact ⟨(r, a), List.mem_zipIdx_iff_getElem?.mpr hr, (y, k),
      List.mem_zipIdx_iff_getElem?.mpr hy, rfl⟩

theorem isCreated_of_added {n : NodeOrigin}
    (hn : n ∈ batch.zipIdx.flatMap fun x => x.1.addedNodes x.2) : n.isCreated = true := by
  obtain ⟨x, -, added⟩ := List.mem_flatMap.mp hn
  obtain ⟨k, -, rfl⟩ := List.mem_map.mp added
  rfl

/-- Batches that spare the same host vertices have these first among their nodes. -/
theorem sameFront_nodes {batch' : List (Resolved D)}
    (same : hostNodes host batch' = hostNodes host batch) :
    SameFront NodeOrigin.isCreated (of host batch).nodes (of host batch').nodes := by
  unfold of
  rw [same]
  apply SameFront.of_append
  · intro n hn
    obtain ⟨v, rfl, -⟩ := mem_hostNodes_iff.mp hn
    rfl
  · exact fun n hn => isCreated_of_added hn
  · exact fun n hn => isCreated_of_added hn

theorem origin_isCreated_of_added {x : Strand}
    (hx : x ∈ batch.zipIdx.flatMap fun r => r.1.addedLinks host r.2) :
    x.origin.isCreated = true := by
  obtain ⟨r, -, added⟩ := List.mem_flatMap.mp hx
  obtain ⟨y, -, rfl⟩ := List.mem_map.mp added
  rfl

theorem strand_get (r : Resolved D) (a : Nat) (x : AddedEdge D × Nat) (side : Side) :
    (r.strand host a x).ends.get side = r.socket host a x.2 x.1 side := by
  cases side <;> rfl

/-- An added edge is spliced only into what a cut edge left. -/
theorem cuts_of_spliced? {r : Resolved D} (hr : r ∈ batch) (valid : r.Valid host)
    {endpoint : Endpoint} {socket : Option Nat} (anchors : r.rule.Anchors endpoint socket)
    {s : Socket} (h : r.spliced? host endpoint socket = some s) :
    ∃ e side, s = .host e side ∧ CutsEdge batch e := by
  cases endpoint with
  | created k => cases h
  | matched i =>
    cases socket with
    | none => cases h
    | some c =>
      obtain ⟨v, hv, -⟩ := Resolved.vertex_of_anchors valid anchors
      obtain ⟨e, record, side, he, -, -, spliced⟩ := Resolved.spliced?_of_anchors valid anchors hv
      rw [h] at spliced
      cases spliced
      obtain ⟨edge, found, cut, -⟩ := anchors.2 c rfl
      refine ⟨e, side, rfl, r, hr, (edge, e), ?_, cut, rfl⟩
      apply List.mem_of_getElem? (i := c)
      rw [List.getElem?_zip_eq_some]
      exact ⟨found, he⟩

theorem socket_cases {r : Resolved D} (hr : r ∈ batch) (valid : r.Valid host) {y : AddedEdge D}
    (hy : y ∈ r.rule.addedEdges) (a k : Nat) (side : Side) :
    r.socket host a k y side = .fresh ⟨r.id, k, a⟩ side ∨
      ∃ e side', r.socket host a k y side = .host e side' ∧ CutsEdge batch e := by
  unfold Resolved.socket
  cases spliced : r.spliced? host (y.ends.get side) (y.sockets.get side) with
  | none => exact .inl rfl
  | some s =>
    obtain ⟨e, side', rfl, cut⟩ :=
      cuts_of_spliced? hr valid ((valid.rule.added y hy).2 side) spliced
    exact .inr ⟨e, side', rfl, cut⟩

theorem proper_of (valid : ∀ r ∈ batch, r.Valid host) : (Blueprint.of host batch).Proper := by
  constructor
  case distinct =>
    intro x hx y hy same
    rcases mem_links_iff.mp hx with ⟨e, rfl, -⟩ | ⟨a, r, k, z, hr, hz, rfl⟩
    · rcases mem_links_iff.mp hy with ⟨e', rfl, -⟩ | ⟨a', r', k', z', -, -, rfl⟩
      · cases same
        rfl
      · cases same
    · rcases mem_links_iff.mp hy with ⟨e', rfl, -⟩ | ⟨a', r', k', z', hr', hz', rfl⟩
      · cases same
      · simp only [Resolved.strand, LinkOrigin.created.injEq, Provenance.mk.injEq] at same
        obtain ⟨-, rfl, rfl⟩ := same
        rw [hr] at hr'
        cases hr'
        rw [hz] at hz'
        cases hz'
        rfl
  case fresh =>
    intro x hx side p side' fresh
    rcases mem_links_iff.mp hx with ⟨e, rfl, -⟩ | ⟨a, r, k, z, hr, hz, rfl⟩
    · cases side <;> cases fresh
    · have inBatch := List.mem_of_getElem? hr
      rw [strand_get] at fresh
      rcases socket_cases inBatch (valid r inBatch) (List.mem_of_getElem? hz) a k side with
        own | ⟨e, side'', host', -⟩
      · simp only [own] at fresh
        cases fresh
        exact ⟨rfl, rfl⟩
      · simp only [host'] at fresh
        cases fresh
  case host =>
    intro x hx e origin
    rcases mem_links_iff.mp hx with ⟨e', rfl, -⟩ | ⟨a, r, k, z, -, -, rfl⟩
    · cases origin
      rfl
    · cases origin
  case apart =>
    intro x hx e origin y hy side side' touches
    rcases mem_links_iff.mp hx with ⟨e', rfl, remains⟩ | ⟨a, r, k, z, -, -, rfl⟩
    · cases origin
      rcases mem_links_iff.mp hy with ⟨e'', rfl, -⟩ | ⟨a, r, k, z, hr, hz, rfl⟩
      · cases side' <;> cases touches <;> rfl
      · have inBatch := List.mem_of_getElem? hr
        rw [strand_get] at touches
        rcases socket_cases inBatch (valid r inBatch) (List.mem_of_getElem? hz) a k side' with
          own | ⟨e', side'', host', cut⟩
        · simp only [own] at touches
          cases touches
        · simp only [host'] at touches
          cases touches
          exact absurd cut remains.1
    · cases origin

/-- Unless an added edge is spliced at both ends, every link that is added has a fresh socket. -/
theorem fresh_of_loose (loose : ∀ r ∈ batch, r.rule.hasPotentialLoop = false) :
    ∀ x ∈ (Blueprint.of host batch).links, (∃ e, x.origin = .host e) ∨
      ∃ side p side', x.ends.get side = .fresh p side' := by
  intro x hx
  rcases mem_links_iff.mp hx with ⟨e, rfl, -⟩ | ⟨a, r, k, y, hr, hy, rfl⟩
  · exact .inl ⟨e, rfl⟩
  · apply Or.inr
    have unspliced : ¬ y.IsSpliced := by
      intro spliced
      have none := loose r (List.mem_of_getElem? hr)
      have found := Rule.hasPotentialLoop_iff.mpr ⟨y, List.mem_of_getElem? hy, spliced⟩
      rw [none] at found
      cases found
    have free : ∀ side, y.sockets.get side = none →
        r.socket host a k y side = .fresh ⟨r.id, k, a⟩ side := by
      intro side none
      unfold Resolved.socket
      rw [none]
      cases y.ends.get side <;> rfl
    by_cases first : y.sockets.first = none
    · exact ⟨.first, _, .first, (strand_get r a (y, k) .first).trans (free .first first)⟩
    · by_cases second : y.sockets.second = none
      · exact ⟨.second, _, .second, (strand_get r a (y, k) .second).trans (free .second second)⟩
      · exact absurd ⟨first, second⟩ unspliced

/-- Only an added edge that is spliced at both ends can close an odd walk. -/
theorem not_odd_of (valid : ∀ r ∈ batch, r.Valid host)
    (loose : ∀ r ∈ batch, r.rule.hasPotentialLoop = false) : ¬ (Blueprint.of host batch).Odd :=
  (proper_of valid).not_odd (fresh_of_loose loose)

end Blueprint

end GraphSplice
