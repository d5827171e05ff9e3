import GraphSplice.Proofs.Blueprint.Reading

/-!
Blueprints in which no two links meet. Nothing is merged then, every node becomes a vertex, and
every link an edge.
-/

namespace GraphSplice

namespace Blueprint

/-- No two links share a socket, and an added link lies between two nodes. -/
structure Detached (b : Blueprint) : Prop where
  alone : ∀ x ∈ b.links, ∀ y ∈ b.links, ∀ side side', x.ends.get side = y.ends.get side' →
    x = y ∧ side = side'
  apart : ∀ x ∈ b.links, x.origin.isCreated = true → b.owner x.ends.first ≠ b.owner x.ends.second

theorem linked_iff {b : Blueprint} {s t : Socket} : b.Linked s t ↔
    ∃ x ∈ b.links, ∃ side, x.ends.get side = s ∧ x.ends.get side.other = t := by
  constructor
  · intro linked
    obtain ⟨x, hx, same | same⟩ := linked
    · exact ⟨x, hx, .first, by rw [same]; rfl, by rw [same]; rfl⟩
    · exact ⟨x, hx, .second, by rw [same]; rfl, by rw [same]; rfl⟩
  · intro found
    obtain ⟨x, hx, side, rfl, rfl⟩ := found
    cases side with
    | first => exact ⟨x, hx, .inl rfl⟩
    | second => exact ⟨x, hx, .inr rfl⟩

namespace Detached

variable {b : Blueprint} {N E : Type} {host : Graph N E}

theorem eq_of_linked (detached : b.Detached) {s t u : Socket} (first : b.Linked s t)
    (second : b.Linked s u) : t = u := by
  obtain ⟨x, hx, side, here, rfl⟩ := linked_iff.mp first
  obtain ⟨y, hy, side', here', rfl⟩ := linked_iff.mp second
  obtain ⟨rfl, rfl⟩ := detached.alone x hx y hy side side' (here.trans here'.symm)
  rfl

theorem ne_of_linked (detached : b.Detached) {s t : Socket} (linked : b.Linked s t) : s ≠ t := by
  obtain ⟨x, hx, side, rfl, rfl⟩ := linked_iff.mp linked
  intro same
  have side_same := (detached.alone x hx x hx side side.other same).2
  exact side.other_ne side_same.symm

/-- A walk goes back and forth along one link. -/
theorem walk_cases (detached : b.Detached) {n : Nat} {s t : Socket} (walk : Walk b.Linked n s t) :
    if Even n then s = t else b.Linked s t := by
  induction n generalizing t with
  | zero =>
    rw [if_pos Even.zero]
    exact walk
  | succ n ih =>
    obtain ⟨u, before, step⟩ := walk
    have reached := ih before
    by_cases even : Even n
    · rw [if_pos even] at reached
      rw [if_neg (Nat.even_add_one.not.mpr (not_not.mpr even)), reached]
      exact step
    · rw [if_neg even] at reached
      rw [if_pos (Nat.even_add_one.mpr even)]
      exact detached.eq_of_linked (Linked.symm _ _ reached) step

theorem balanced (detached : b.Detached) : ¬ b.Odd := by
  intro odd
  obtain ⟨s, n, parity, closed⟩ := odd
  have reached := detached.walk_cases closed
  rw [if_neg parity] at reached
  exact detached.ne_of_linked reached rfl

theorem eq_of_beside (detached : b.Detached) {s t : Socket} (beside : b.Beside s t) : s = t := by
  obtain ⟨n, even, walk⟩ := beside
  have reached := detached.walk_cases walk
  rwa [if_pos even] at reached

theorem eq_of_merged (detached : b.Detached) {m n : NodeOrigin} (merged : b.Merged m n) :
    m = n := by
  induction merged with
  | rel m n meets =>
    obtain ⟨s, t, hs, ht, beside⟩ := (meets_iff detached.balanced).mp meets
    rw [detached.eq_of_beside beside, ht] at hs
    exact (Option.some.inj hs).symm
  | refl m => rfl
  | symm m n _ ih => exact ih.symm
  | trans l m n _ _ ih ih' => exact ih.trans ih'

/-- Every node becomes a vertex. -/
theorem leads_eq (detached : b.Detached) : b.leads = b.nodes := by
  classical
  apply List.filter_eq_self.mpr
  intro n _
  apply decide_eq_true
  intro m _ merged
  rw [detached.eq_of_merged merged]

theorem eq_of_sameComponent (detached : b.Detached) {x y : Strand} (hx : x ∈ b.links)
    (hy : y ∈ b.links) (same : b.SameComponent x y) : x = y := by
  rcases beside_of_sameComponent hx hy same with ⟨beside, -⟩ | ⟨beside, -⟩
  · exact (detached.alone x hx y hy .first .first (detached.eq_of_beside beside)).1
  · exact (detached.alone x hx y hy .first .second (detached.eq_of_beside beside)).1

theorem chosen_eq (detached : b.Detached) (grounded : b.Grounded host) {chosen : List Strand}
    (selects : b.Selects chosen) : chosen = b.links := by
  apply selects.sublist.eq_of_length_le
  apply (List.subperm_of_subset grounded.links ?_).length_le
  intro x hx
  obtain ⟨y, ⟨hy, same⟩, -⟩ := selects.exists_unique x hx
  rw [detached.eq_of_sameComponent hx (selects.sublist.subset hy) same]
  exact hy

/-- At the vertex of a socket stands its owner. -/
theorem node_at_vertexAt (detached : b.Detached) (grounded : b.Grounded host) {s : Socket}
    {n : NodeOrigin} (owns : b.owner s = some n) :
    b.nodes[(b.vertexAt s).slot]? = some n := by
  obtain ⟨m, lead, merged⟩ := lead_at_vertexAt owns (grounded.owner s n owns)
  rw [detached.leads_eq, detached.eq_of_merged merged] at lead
  exact lead

theorem vertexAt_eq_iff (detached : b.Detached) (grounded : b.Grounded host) {s : Socket}
    {n : NodeOrigin} (owns : b.owner s = some n) {v : VertexId} :
    b.vertexAt s = v ↔ b.nodes[v.slot]? = some n := by
  have found := detached.node_at_vertexAt grounded owns
  constructor
  · intro same
    rw [← same]
    exact found
  · intro there
    apply Handle.ext_slot
    obtain ⟨inside, -⟩ := List.getElem?_eq_some_iff.mp found
    exact (List.getElem?_inj inside grounded.nodes).mp (found.trans there.symm)

theorem survives (detached : b.Detached) (grounded : b.Grounded host) {x : Strand}
    (hx : x ∈ b.links) : b.Survives x := by
  cases origin : x.origin with
  | host e => exact .inl ⟨e, origin⟩
  | created p =>
    apply Or.inr
    obtain ⟨m, hm⟩ := Option.isSome_iff_exists.mp (grounded.ends x hx .first)
    obtain ⟨n, hn⟩ := Option.isSome_iff_exists.mp (grounded.ends x hx .second)
    intro same
    have merged := (Blueprint.vertexAt_eq_iff grounded hm hn).mp same
    apply detached.apart x hx (by rw [origin]; rfl)
    change b.owner (x.ends.get .first) = b.owner (x.ends.get .second)
    rw [hm, hn, detached.eq_of_merged merged]

theorem roomy (detached : b.Detached) (grounded : b.Grounded host) (n : Nat) :
    ¬ b.FirstCrowded n := by
  intro crowded
  obtain ⟨e, side, ⟨several, -, e', side', -, count⟩, -⟩ := crowded
  have nodup : (b.between (.host e side) (.host e' side')).Nodup := grounded.links.filter _
  have one : (b.between (.host e side) (.host e' side')).length ≤ 1 := by
    by_contra more
    have inside := Nat.lt_of_not_le more
    have first : 0 < (b.between (.host e side) (.host e' side')).length := by omega
    have touching : ∀ x ∈ b.between (.host e side) (.host e' side'),
        x ∈ b.links ∧ ∃ k, x.ends.get k = .host e side := by
      intro x hx
      obtain ⟨mem, joins⟩ := List.mem_filter.mp hx
      exact ⟨mem, Ends.touches_iff_get.mp (of_decide_eq_true joins).touches.1⟩
    obtain ⟨hx, k, here⟩ := touching _ (List.getElem_mem first)
    obtain ⟨hy, k', here'⟩ := touching _ (List.getElem_mem inside)
    have same := (detached.alone _ hx _ hy k k' (here.trans here'.symm)).1
    have positions := (nodup.getElem_inj_iff).mp same
    cases positions
  omega

end Detached

variable {D : Domain} {host : Host D} {b : Blueprint} {d : Derivation D}

/-- The graph has the nodes as its vertices and the links as its edges. -/
structure Draws (b : Blueprint) (host g : Host D) : Prop where
  vertices : g.vertices.toList =
    stamp (NodeOrigin.record? host) (fun index _ => ⟨index, D.freshNode⟩) host.nextVertexIndex
      b.nodes
  edges : g.edges.toList =
    stamp (b.edgeRecord? host) (fun index x => ⟨index, b.vertexEnds x, D.freshArc⟩)
      host.nextEdgeIndex b.links
  nextVertexIndex : g.nextVertexIndex =
    counterAfter (NodeOrigin.record? host) host.nextVertexIndex b.nodes
  nextEdgeIndex : g.nextEdgeIndex =
    counterAfter (b.edgeRecord? host) host.nextEdgeIndex b.links

/-- Every link becomes an edge. -/
theorem Detached.kept_eq (detached : b.Detached) (grounded : b.Grounded host)
    {chosen : List Strand} (selects : b.Selects chosen) : b.kept chosen = b.links := by
  rw [kept, detached.chosen_eq grounded selects, List.filter_eq_self]
  intro x hx
  simpa using detached.survives grounded hx

theorem Yields.reads (yields : b.Yields host d) (detached : b.Detached)
    (grounded : b.Grounded host) : b.Reads host d b.links := by
  obtain ⟨chosen, selects, reads⟩ := yields.exists_reads grounded
  rwa [detached.kept_eq grounded selects] at reads

theorem Yields.draws (yields : b.Yields host d) (detached : b.Detached)
    (grounded : b.Grounded host) : b.Draws host d.graph ∧
      d.createdVertices = (positions NodeOrigin.isCreated b.nodes).map Handle.mk ∧
      d.createdEdges = (positions (fun x : Strand => x.origin.isCreated) b.links).map
        Handle.mk := by
  classical
  obtain ⟨chosen, selects, edges, createdEdges, nextEdgeIndex⟩ := yields.edges
  have all : chosen.filter (fun x => b.Survives x) = b.links := detached.kept_eq grounded selects
  have vertices := yields.vertices
  have nextVertexIndex := yields.nextVertexIndex
  have createdVertices := yields.createdVertices
  rw [detached.leads_eq] at vertices nextVertexIndex createdVertices
  refine ⟨⟨vertices, ?_, nextVertexIndex, ?_⟩, createdVertices, ?_⟩
  · rw [edges, all]
  · rw [nextEdgeIndex, all]
  · rw [createdEdges, all]

end Blueprint

end GraphSplice
