import GraphSplice.Proofs.Blueprint.Batch
import GraphSplice.Proofs.Blueprint.Reading
import GraphSplice.Proofs.Blueprint.Yield

/-!
Which added element a created one is credited to. A created vertex is credited to the earliest added
vertex of its class, and only where no host vertex belongs to the class; a created edge to the link
that was chosen from its component, in which there is no host link.
-/

namespace GraphSplice

variable {D : Domain} {host : Host D} {batch : List (Resolved D)} {links : List Strand}
  {a : Assembly D.Node D.Arc}

/-- The element is added by an earlier application, or earlier by the same one. -/
def Provenance.Precedes (p q : Provenance) : Prop :=
  p.application < q.application ∨ p.application = q.application ∧ p.element < q.element

namespace Blueprint

/-! ## The earliest node of a class -/

/-- Host nodes come before added ones, and these in the order in which they are added. -/
def ComesBefore : NodeOrigin → NodeOrigin → Prop
  | .host _, _ => True
  | .created _, .host _ => False
  | .created p, .created q => p.Precedes q

theorem addedNodes_pairwise (batch : List (Resolved D)) :
    (batch.zipIdx.flatMap fun x => x.1.addedNodes x.2).Pairwise ComesBefore := by
  rw [List.pairwise_flatMap]
  constructor
  · rintro ⟨r, a⟩ -
    rw [Resolved.addedNodes, List.pairwise_map]
    exact List.pairwise_lt_range.imp fun less => .inr ⟨rfl, less⟩
  · refine (List.pairwise_map.mp (zipIdx_ascending batch 0)).imp fun {x y} less m hm n hn => ?_
    obtain ⟨k, -, rfl⟩ := List.mem_map.mp hm
    obtain ⟨l, -, rfl⟩ := List.mem_map.mp hn
    exact .inl less

theorem nodes_pairwise (host : Host D) (batch : List (Resolved D)) :
    (of host batch).nodes.Pairwise ComesBefore := by
  have first : ∀ m ∈ hostNodes host batch, ∀ n, ComesBefore m n := by
    intro m hm n
    obtain ⟨v, rfl, -⟩ := mem_hostNodes_iff.mp hm
    trivial
  refine List.pairwise_append.mpr ⟨?_, addedNodes_pairwise batch, fun m hm n _ => first m hm n⟩
  exact List.Pairwise.imp_of_mem (fun hm _ _ => first _ hm _)
    (List.pairwise_of_forall (R := fun _ _ => True) fun _ _ => trivial)

/-- What is merged with an added vertex that leads its class was added, and not before it. -/
theorem earliest_of_lead {p : Provenance} (lead : .created p ∈ (of host batch).leads)
    {m : NodeOrigin} (hm : m ∈ (of host batch).nodes)
    (merged : (of host batch).Merged m (.created p)) :
    ∃ q, m = .created q ∧ (q = p ∨ p.Precedes q) := by
  obtain ⟨inside, leads⟩ := mem_leads_iff.mp lead
  rcases Nat.lt_or_eq_of_le (leads m hm merged) with before | same
  · have order := rel_of_idxOf_lt (nodes_pairwise host batch) inside hm before
    cases m with
    | host v => cases order
    | created q => exact ⟨q, rfl, .inr order⟩
  · exact ⟨p, ((List.idxOf_inj inside).mp same).symm, .inl rfl⟩

/-! ## The chosen link of a component -/

/-- A created link is not chosen from a component with a host link. -/
theorem Selects.isCreated_of_sameComponent {b : Blueprint} (selects : b.Selects links) {x y : Strand}
    (hx : x ∈ links) (created : x.origin.isCreated = true) (hy : y ∈ b.links)
    (same : b.SameComponent y x) : y.origin.isCreated = true := by
  cases origin : y.origin with
  | created p => rfl
  | host e =>
    obtain ⟨z, -, only⟩ := selects.exists_unique y hy
    have first := only x ⟨hx, same⟩
    have second := only y ⟨selects.host y hy e origin, .refl y⟩
    rw [first, ← second, origin] at created
    cases created

/-! ## Credits -/

namespace Attributes

variable {b : Blueprint} (attributes : b.Attributes host links a)

include attributes

theorem mem_createdVertices_iff {v : VertexId} {p : Provenance} :
    (v, p) ∈ a.createdVertices ↔ b.leads[v.slot]? = some (.created p) := by
  rw [attributes.createdVertices, List.mem_filterMap]
  constructor
  · rintro ⟨⟨n, i⟩, listed, made⟩
    have found := List.mem_zipIdx_iff_getElem?.mp listed
    cases n with
    | host u => cases made
    | created q =>
      cases made
      exact found
  · exact fun found => ⟨(.created p, v.slot), List.mem_zipIdx_iff_getElem?.mpr found, rfl⟩

theorem mem_createdEdges_iff {e : EdgeId} {p : Provenance} : (e, p) ∈ a.createdEdges ↔
    ∃ x, (b.kept links)[e.slot]? = some x ∧ x.origin = .created p := by
  rw [attributes.createdEdges, List.mem_filterMap]
  constructor
  · rintro ⟨⟨origin, i⟩, listed, made⟩
    have found := List.mem_zipIdx_iff_getElem?.mp listed
    rw [List.getElem?_map] at found
    obtain ⟨x, there, same⟩ := Option.map_eq_some_iff.mp found
    cases origin with
    | host e' => cases made
    | created q =>
      cases made
      exact ⟨x, there, same⟩
  · rintro ⟨x, there, origin⟩
    refine ⟨(.created p, e.slot), List.mem_zipIdx_iff_getElem?.mpr ?_, rfl⟩
    rw [List.getElem?_map]
    exact Option.map_eq_some_iff.mpr ⟨x, there, origin⟩

theorem createdVertices_ascending : (a.createdVertices.map (·.1)).Pairwise (· < ·) := by
  rw [attributes.createdVertices, Assembly.createdVertices_eq_positions, List.pairwise_map]
  exact positions_ascending NodeOrigin.isCreated b.leads

theorem createdEdges_ascending : (a.createdEdges.map (·.1)).Pairwise (· < ·) := by
  rw [attributes.createdEdges_eq, List.pairwise_map]
  exact positions_ascending _ _

end Attributes

end Blueprint

/-- No element is listed twice where what is credited determines it. -/
theorem nodup_credits {kind : Kind} {xs : List (Handle kind × Provenance)}
    (ascending : (xs.map (·.1)).Pairwise (· < ·))
    (same : ∀ x y p, (x, p) ∈ xs → (y, p) ∈ xs → x = y) : (xs.map (·.2)).Nodup := by
  have apart := List.Nodup.of_map _ (ascending.imp fun {x y} less => ne_of_irrefl less)
  refine apart.map_on fun x hx y hy credit => Prod.ext ?_ credit
  obtain ⟨d, p⟩ := x
  obtain ⟨e, q⟩ := y
  cases credit
  exact same d e p hx hy

/-- To which added elements the created vertices and edges of an assembly are credited. -/
structure Credited (host : Host D) (batch : List (Resolved D)) (links : List Strand)
    (a : Assembly D.Node D.Arc) : Prop where
  /-- A created vertex is credited to the added vertex that leads its class. -/
  vertex : ∀ v p, (v, p) ∈ a.createdVertices ↔
    (Blueprint.of host batch).leads[v.slot]? = some (.created p)
  addedVertex : ∀ x ∈ a.createdVertices, ∃ r, batch[x.2.application]? = some r ∧
    r.id = x.2.rule ∧ x.2.element < r.rule.addedVertices.length
  /-- The class has only added vertices, none of which was added earlier. -/
  earliest : ∀ x ∈ a.createdVertices, ∀ m ∈ (Blueprint.of host batch).nodes,
    (Blueprint.of host batch).Merged m (.created x.2) →
      ∃ q, m = .created q ∧ (q = x.2 ∨ x.2.Precedes q)
  /-- A created edge is credited to the added edge that was chosen from its component. -/
  edge : ∀ e p, (e, p) ∈ a.createdEdges ↔
    ∃ x, ((Blueprint.of host batch).kept links)[e.slot]? = some x ∧ x.origin = .created p
  addedEdge : ∀ x ∈ a.createdEdges, ∃ r y, batch[x.2.application]? = some r ∧ r.id = x.2.rule ∧
    r.rule.addedEdges[x.2.element]? = some y ∧
    ((Blueprint.of host batch).kept links)[x.1.slot]? =
      some (r.strand host x.2.application (y, x.2.element))
  vertexOrder : (a.createdVertices.map (·.1)).Pairwise (· < ·)
  edgeOrder : (a.createdEdges.map (·.1)).Pairwise (· < ·)
  vertexOnce : (a.createdVertices.map (·.2)).Nodup
  edgeOnce : (a.createdEdges.map (·.2)).Nodup
  /-- Nothing is credited to an added vertex that is merged with a host vertex, -/
  foldedVertex : ∀ u p, .host u ∈ (Blueprint.of host batch).nodes →
    (Blueprint.of host batch).Merged (.host u) (.created p) → p ∉ a.createdVertices.map (·.2)
  /-- nor to an added edge both ends of which are at one vertex, -/
  foldedEdge : ∀ x ∈ (Blueprint.of host batch).links, ∀ p, x.origin = .created p →
    (Blueprint.of host batch).vertexAt x.ends.first =
      (Blueprint.of host batch).vertexAt x.ends.second → p ∉ a.createdEdges.map (·.2)
  /-- nor to one in the component of a host link. -/
  joinedEdge : ∀ x ∈ (Blueprint.of host batch).links, ∀ p, x.origin = .created p →
    ∀ y ∈ (Blueprint.of host batch).links, ∀ e, y.origin = .host e →
      (Blueprint.of host batch).SameComponent y x → p ∉ a.createdEdges.map (·.2)

namespace Blueprint

theorem Attributes.credited (attributes : (of host batch).Attributes host links a)
    (grounded : (of host batch).Grounded host) (proper : (of host batch).Proper) :
    Credited host batch links a := by
  have kept : ∀ {e : EdgeId} {x : Strand}, ((of host batch).kept links)[e.slot]? = some x →
      x ∈ links ∧ (of host batch).Survives x ∧ x ∈ (of host batch).links := by
    intro e x there
    obtain ⟨chosen, survives⟩ := mem_kept_iff.mp (List.mem_of_getElem? there)
    exact ⟨chosen, survives, attributes.selects.sublist.subset chosen⟩
  have earliest : ∀ x ∈ a.createdVertices, ∀ m ∈ (of host batch).nodes,
      (of host batch).Merged m (.created x.2) →
        ∃ q, m = .created q ∧ (q = x.2 ∨ x.2.Precedes q) := by
    rintro ⟨v, p⟩ hx m hm merged
    have lead := attributes.mem_createdVertices_iff.mp hx
    exact earliest_of_lead (List.mem_of_getElem? lead) hm merged
  refine {
    vertex := fun v p => attributes.mem_createdVertices_iff
    addedVertex := ?addedVertex
    earliest := earliest
    edge := fun e p => attributes.mem_createdEdges_iff
    addedEdge := ?addedEdge
    vertexOrder := attributes.createdVertices_ascending
    edgeOrder := attributes.createdEdges_ascending
    vertexOnce := nodup_credits attributes.createdVertices_ascending ?vertexOnce
    edgeOnce := nodup_credits attributes.createdEdges_ascending ?edgeOnce
    foldedVertex := ?foldedVertex
    foldedEdge := ?foldedEdge
    joinedEdge := ?joinedEdge }
  case addedVertex =>
    rintro ⟨v, p⟩ hx
    have lead := List.mem_of_getElem? (attributes.mem_createdVertices_iff.mp hx)
    rcases mem_nodes_iff.mp (mem_leads_iff.mp lead).1 with ⟨u, same, -⟩ | ⟨n, r, k, found, below, same⟩
    · cases same
    · cases same
      exact ⟨r, found, rfl, below⟩
  case addedEdge =>
    rintro ⟨e, p⟩ hx
    obtain ⟨x, there, origin⟩ := attributes.mem_createdEdges_iff.mp hx
    rcases mem_links_iff.mp (kept there).2.2 with ⟨d, rfl, -⟩ | ⟨n, r, k, y, found, added, rfl⟩
    · cases origin
    · cases origin
      exact ⟨r, y, found, rfl, added, there⟩
  case vertexOnce =>
    intro v w p hv hw
    have lead := attributes.mem_createdVertices_iff.mp hv
    have lead' := attributes.mem_createdVertices_iff.mp hw
    exact Handle.ext_slot ((List.getElem?_inj (List.getElem?_eq_some_iff.mp lead).1
      (nodup_leads grounded)).mp (lead.trans lead'.symm))
  case edgeOnce =>
    intro d e p hd he
    obtain ⟨x, there, origin⟩ := attributes.mem_createdEdges_iff.mp hd
    obtain ⟨y, there', origin'⟩ := attributes.mem_createdEdges_iff.mp he
    obtain rfl := proper.distinct x (kept there).2.2 y (kept there').2.2 (origin.trans origin'.symm)
    have nodup : ((of host batch).kept links).Nodup :=
      grounded.links.sublist (List.filter_sublist.trans attributes.selects.sublist)
    exact Handle.ext_slot ((List.getElem?_inj (List.getElem?_eq_some_iff.mp there).1 nodup).mp
      (there.trans there'.symm))
  case foldedVertex =>
    intro u p hu merged credited
    obtain ⟨x, hx, rfl⟩ := List.mem_map.mp credited
    obtain ⟨q, same, -⟩ := earliest x hx _ hu merged
    cases same
  case foldedEdge =>
    intro x hx p origin loop credited
    obtain ⟨⟨e, q⟩, hy, rfl⟩ := List.mem_map.mp credited
    obtain ⟨y, there, origin'⟩ := attributes.mem_createdEdges_iff.mp hy
    obtain ⟨-, survives, inside⟩ := kept there
    obtain rfl := proper.distinct x hx y inside (origin.trans origin'.symm)
    rcases survives with ⟨e', host'⟩ | apart
    · rw [origin] at host'
      cases host'
    · exact apart loop
  case joinedEdge =>
    intro x hx p origin y hy e host' same credited
    obtain ⟨⟨e', q⟩, hz, rfl⟩ := List.mem_map.mp credited
    obtain ⟨z, there, origin'⟩ := attributes.mem_createdEdges_iff.mp hz
    obtain ⟨chosen, -, inside⟩ := kept there
    obtain rfl := proper.distinct x hx z inside (origin.trans origin'.symm)
    have created := attributes.selects.isCreated_of_sameComponent chosen (by rw [origin]; rfl) hy same
    rw [host'] at created
    cases created

end Blueprint

end GraphSplice
