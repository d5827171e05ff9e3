import GraphSplice.Proofs.Blueprint.Reading
import GraphSplice.Proofs.Blueprint.Renaming

/-!
Two derivations whose blueprints differ by the numbers of applications only are isomorphic. Leads
correspond by merging and kept links by their components; what comes from the host is at the same
place in both.
-/

namespace GraphSplice

/-- Maps of handles along which two derivations are alike; what comes from the host stays as it
is. -/
structure Derivation.Isomorphism {D : Domain} (d d' : Derivation D) (f : VertexId → VertexId)
    (g : EdgeId → EdgeId) : Prop where
  vertices : Set.BijOn f {v | d.graph.Contains v} {v | d'.graph.Contains v}
  edges : Set.BijOn g {e | e.slot < d.graph.size} {e | e.slot < d'.graph.size}
  createdVertices : ∀ v, d.graph.Contains v → (f v ∈ d'.createdVertices ↔ v ∈ d.createdVertices)
  createdEdges : ∀ e, e.slot < d.graph.size → (g e ∈ d'.createdEdges ↔ e ∈ d.createdEdges)
  vertex : ∀ v record, d.graph.vertex? v = some record →
    ∃ record', d'.graph.vertex? (f v) = some record' ∧ record'.payload = record.payload
  edge : ∀ e record, d.graph.edge? e = some record →
    ∃ record', d'.graph.edge? (g e) = some record' ∧ record'.payload = record.payload ∧
      record'.ends.Joins (f record.ends.first) (f record.ends.second)
  keptVertex : ∀ v record, d.graph.vertex? v = some record → v ∉ d.createdVertices →
    f v = v ∧ d'.graph.vertex? v = some record
  keptEdge : ∀ e record, d.graph.edge? e = some record → e ∉ d.createdEdges →
    g e = e ∧ d'.graph.edge? e = some { record with ends := record.ends.map f }

namespace Blueprint

theorem Proper.relabel_of_isCreated_eq_false {b : Blueprint} (proper : b.Proper) {x : Strand}
    {σ : Equiv.Perm Nat} (hx : x ∈ b.links) (unmarked : x.origin.isCreated = false) :
    x.relabel σ = x := by
  obtain ⟨origin, ends⟩ := x
  cases origin with
  | host e =>
    have own := proper.host _ hx e rfl
    simp only at own
    subst own
    rfl
  | created p => cases unmarked

/-- Two blueprints that differ by the numbers of applications, with a choice of links of each. -/
structure Twins {D : Domain} (host : Host D) (σ : Equiv.Perm Nat) (b b' : Blueprint)
    (chosen chosen' : List Strand) : Prop where
  renamed : Renamed σ b b'
  grounded : b.Grounded host
  grounded' : b'.Grounded host
  proper : b.Proper
  proper' : b'.Proper
  balanced : ¬ b.Odd
  selects : b.Selects chosen
  selects' : b'.Selects chosen'

namespace Twins

variable {D : Domain} {host : Host D} {σ : Equiv.Perm Nat} {b b' : Blueprint}
  {chosen chosen' : List Strand}

theorem counterparts (t : Twins host σ b b' chosen chosen') :
    Counterparts host (NodeOrigin.relabelEquiv σ) (Socket.relabelEquiv σ) b b' chosen chosen' :=
  ⟨t.renamed.corresponds, t.grounded, t.grounded', t.balanced, t.selects, t.selects'⟩

theorem link_of_host (t : Twins host σ b b' chosen chosen') {x y : Strand} (hx : x ∈ chosen)
    (hy : y ∈ chosen') (facing : Counterparts.Facing (Socket.relabelEquiv σ) b' x y)
    (unmarked : x.origin.isCreated = false) : y = x := by
  have inside := t.selects.sublist.subset hx
  have same : b'.SameComponent (x.relabel σ) y := facing
  rw [t.proper.relabel_of_isCreated_eq_false inside unmarked] at same
  have there := t.renamed.hostLinks.mem inside unmarked
  obtain ⟨e, origin⟩ := exists_host_of_isCreated_eq_false unmarked
  apply (t.selects'.exists_unique x there).unique ⟨hy, same⟩
  exact ⟨t.selects'.host x there e origin, SameComponent.refl x⟩

theorem sameFront_kept (t : Twins host σ b b' chosen chosen') :
    SameFront (fun x : Strand => x.origin.isCreated) (b.kept chosen) (b'.kept chosen') := by
  have whole : SameFront (fun x : Strand => x.origin.isCreated) chosen chosen' := by
    apply t.renamed.hostLinks.of_sublist t.grounded.links t.selects.sublist t.selects'.sublist
    · intro x hx unmarked
      obtain ⟨e, origin⟩ := exists_host_of_isCreated_eq_false unmarked
      exact t.selects.host x hx e origin
    · intro x hx unmarked
      obtain ⟨e, origin⟩ := exists_host_of_isCreated_eq_false unmarked
      exact t.selects'.host x hx e origin
  apply whole.filter
  intro x _ unmarked
  have survives := exists_host_of_isCreated_eq_false unmarked
  exact decide_eq_decide.mpr ⟨fun _ => .inl survives, fun _ => .inl survives⟩

variable {d d' : Derivation D} {f g : Nat → Nat}

theorem fixed (t : Twins host σ b b' chosen chosen')
    (map : Counterparts.LinkMap (Socket.relabelEquiv σ) b' (b.kept chosen) (b'.kept chosen') g)
    {i : Nat} {x : Strand} (found : (b.kept chosen)[i]? = some x)
    (unmarked : x.origin.isCreated = false) : g i = i ∧ (b'.kept chosen')[i]? = some x := by
  have there := t.sameFront_kept.getElem? found unmarked
  refine ⟨?_, there⟩
  obtain ⟨y, found', facing⟩ := map.2 i x found
  have same := t.link_of_host (mem_kept_iff.mp (List.mem_of_getElem? found)).1
    (mem_kept_iff.mp (List.mem_of_getElem? found')).1 facing unmarked
  rw [same] at found'
  obtain ⟨inside, -⟩ := List.getElem?_eq_some_iff.mp found'
  exact (List.getElem?_inj inside t.counterparts.symm.nodup_kept).mp (found'.trans there.symm)

/-- An edge of the host stays at its place, between the corresponding vertices. -/
theorem keptEdge (t : Twins host σ b b' chosen chosen')
    (map : Counterparts.LeadMap (NodeOrigin.relabelEquiv σ) b b' f)
    (links : Counterparts.LinkMap (Socket.relabelEquiv σ) b' (b.kept chosen) (b'.kept chosen') g)
    (reads : b.Reads host d (b.kept chosen)) (reads' : b'.Reads host d' (b'.kept chosen'))
    {e : EdgeId} {record : Edge D.Arc} (found : d.graph.edge? e = some record)
    (kept : e ∉ d.createdEdges) : Counterparts.lift g e = e ∧ d'.graph.edge? e =
      some { record with ends := record.ends.map (Counterparts.lift f) } := by
  have inside : e.slot < (b.kept chosen).length := by
    rw [← reads.size]
    exact (Array.getElem?_eq_some_iff.mp found).1
  have link := List.getElem?_eq_getElem inside
  generalize (b.kept chosen)[e.slot] = x at link
  have inLinks := t.selects.sublist.subset (mem_kept_iff.mp (List.mem_of_getElem? link)).1
  have mark : x.origin.isCreated = false :=
    Bool.eq_false_iff.mpr fun mark => kept ((reads.mem_createdEdges_iff link).mpr mark)
  obtain ⟨e', origin⟩ := exists_host_of_isCreated_eq_false mark
  obtain ⟨stays, there⟩ := t.fixed links link mark
  refine ⟨Handle.ext_slot stays, ?_⟩
  have ends : b'.vertexEnds x = (b.vertexEnds x).map (Counterparts.lift f) := by
    have stays' := t.proper.relabel_of_isCreated_eq_false (σ := σ) inLinks mark
    have first := map.vertexAt t.counterparts (t.grounded.ends x inLinks .first)
    have second := map.vertexAt t.counterparts (t.grounded.ends x inLinks .second)
    have both : b'.vertexEnds (x.relabel σ) = (b.vertexEnds x).map (Counterparts.lift f) :=
      congrArg₂ Ends.mk first second
    rwa [stays'] at both
  have read := reads.hostEdge e x e' link origin
  rw [found] at read
  obtain ⟨old, known, rfl⟩ := Option.map_eq_some_iff.mp read.symm
  have found' := reads'.hostEdge e x e' there origin
  rw [known, ends] at found'
  exact found'

/-- What two such blueprints describe is isomorphic. -/
theorem exists_isomorphism (t : Twins host σ b b' chosen chosen')
    (reads : b.Reads host d (b.kept chosen)) (reads' : b'.Reads host d' (b'.kept chosen')) :
    ∃ f g, d.Isomorphism d' f g := by
  obtain ⟨f, map⟩ := t.counterparts.exists_leadMap
  obtain ⟨g, links⟩ := t.counterparts.exists_linkMap
  have alike := t.counterparts.likeness map links reads reads'
  have keptEdge (e : EdgeId) (record : Edge D.Arc) (found : d.graph.edge? e = some record)
      (kept : e ∉ d.createdEdges) := t.keptEdge map links reads reads' found kept
  refine ⟨_, _, alike.vertices, alike.edges, alike.createdVertices, alike.createdEdges,
    alike.vertex, ?_, alike.keptVertex, keptEdge⟩
  intro e record found
  obtain ⟨record', found', payload, joins⟩ := alike.edge e record found
  refine ⟨record', found', ?_, joins⟩
  by_cases fresh : e ∈ d.createdEdges
  · exact payload fresh
  · obtain ⟨stays, there⟩ := keptEdge e record found fresh
    rw [stays, there] at found'
    cases found'
    rfl

end Twins

end Blueprint

end GraphSplice
