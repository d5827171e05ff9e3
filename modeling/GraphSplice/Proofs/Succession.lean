import GraphSplice.Proofs.Frame
import GraphSplice.Proofs.Graph.Succession

/-!
A derived graph succeeds its host. The host elements that no application writes keep their indices,
and those that are created take theirs from the counters of the host; creation callbacks that only
add elements go on from there.
-/

namespace GraphSplice

open Blueprint Register

variable {D : Domain} {host : Host D} {batch : List (Resolved D)}

namespace Blueprint

variable {b : Blueprint} {d : Derivation D}

theorem vertexOf?_of_lead (grounded : b.Grounded host) {u w : VertexId}
    (lead : b.leads[w.slot]? = some (.host u)) : b.vertexOf? u = some w := by
  have inside := (mem_leads_iff.mp (List.mem_of_getElem? lead)).1
  obtain ⟨w', placed⟩ := Option.isSome_iff_exists.mp (vertexOf?_isSome_iff.mpr inside)
  obtain ⟨m, there, merged⟩ := lead_of_vertexOf? placed
  obtain rfl := lead_unique (List.mem_of_getElem? there) (List.mem_of_getElem? lead) merged
  have within := (List.getElem?_eq_some_iff.mp there).1
  rw [placed, Handle.ext_slot ((List.getElem?_inj within (nodup_leads grounded)).mp
    (there.trans lead.symm))]

/-- The place of a host edge among those that remain. -/
def edgeOf? (host : Host D) (batch : List (Resolved D)) (e : EdgeId) : Option EdgeId :=
  if Remains host batch e then some ⟨(host.edgeIds.filter fun e => Remains host batch e).idxOf e⟩
  else none

theorem edgeOf?_isSome_iff {e : EdgeId} :
    (edgeOf? host batch e).isSome = true ↔ Remains host batch e := by
  unfold edgeOf?
  split <;> simp_all

theorem mem_remaining_iff {e : EdgeId} :
    e ∈ (host.edgeIds.filter fun e => Remains host batch e) ↔ Remains host batch e := by
  rw [List.mem_filter, decide_eq_true_eq, and_iff_right_iff_imp]
  rintro ⟨-, record, found, -⟩
  exact Graph.mem_edgeIds.mpr (Graph.edge?_isSome_iff.mp ⟨record, found⟩)

theorem hostLink_of_edgeOf? {e e' : EdgeId} (h : edgeOf? host batch e = some e') :
    (hostLinks host batch)[e'.slot]? = some (hostStrand e) := by
  unfold edgeOf? at h
  split at h
  · next remains =>
    cases h
    rw [hostLinks, List.getElem?_map, getElem?_idxOf (mem_remaining_iff.mpr remains)]
    rfl
  · cases h

theorem edgeOf?_of_hostLink {e e' : EdgeId}
    (h : (hostLinks host batch)[e'.slot]? = some (hostStrand e)) :
    edgeOf? host batch e = some e' := by
  rw [hostLinks, List.getElem?_map] at h
  obtain ⟨e₀, found, same⟩ := Option.map_eq_some_iff.mp h
  obtain rfl : e₀ = e := LinkOrigin.host.inj (congrArg Strand.origin same)
  unfold edgeOf?
  rw [if_pos (mem_remaining_iff.mp (List.mem_of_getElem? found)),
    idxOf_of_getElem? ((Graph.nodup_edgeIds host).filter _) found]

/-- The vertices of a derived graph succeed those of the host. -/
theorem Yields.vertex_succession (yields : (of host batch).Yields host d)
    (grounded : (of host batch).Grounded host) (consistent : host.Consistent)
    (given : VertexId → Prop) : Succession host.vertexRegister d.graph.vertexRegister
      (of host batch).vertexOf? given := by
  refine succession_stamp (NodeOrigin.record? host) (fun index _ => ⟨index, D.freshNode⟩)
    (of host batch).leads (·.index) (fun _ _ => rfl) ?_ ?_ yields.nextVertexIndex ?_ ?_ given
  · rintro (v | p) - record known
    · exact consistent.vertexIndex v record known
    · cases known
  · intro v
    have entry : d.graph.vertex? v = d.graph.vertices.toList[v.slot]? := Array.getElem?_toList.symm
    rw [yields.vertices] at entry
    exact congrArg (Option.map (·.index)) entry
  · intro v w placed
    obtain ⟨u, before, placed', there⟩ := exists_foremost_lead placed
    have contained := grounded.hostNode u (mem_leads_iff.mp (List.mem_of_getElem? there)).1
    obtain ⟨record, found⟩ := Graph.contains_iff.mp contained
    exact ⟨u, before, placed', .host u, record, there, found,
      congrArg (Option.map Vertex.index) found⟩
  · rintro w (u | p) record there known
    · exact ⟨u, vertexOf?_of_lead grounded there⟩
    · cases known

/-- The edges of a derived graph succeed those of the host. -/
theorem Yields.edge_succession (yields : (of host batch).Yields host d)
    (grounded : (of host batch).Grounded host) (consistent : host.Consistent)
    (given : EdgeId → Prop) : Succession host.edgeRegister d.graph.edgeRegister
      (edgeOf? host batch) given := by
  obtain ⟨chosen, selects, edges, -, counter⟩ := yields.edges
  obtain ⟨rest, split, created⟩ := exists_kept_eq grounded selects
  have known_iff : ∀ x record, (of host batch).edgeRecord? host x = some record →
      ∃ e found, x.origin = .host e ∧ host.edge? e = some found ∧ record.index = found.index := by
    intro x record known
    obtain ⟨found, there, rfl⟩ := Option.map_eq_some_iff.mp known
    cases origin : x.origin with
    | host e => exact ⟨e, found, rfl, by rwa [origin] at there, rfl⟩
    | created p =>
      rw [origin] at there
      cases there
  refine succession_stamp ((of host batch).edgeRecord? host)
    (fun index x => ⟨index, (of host batch).vertexEnds x, D.freshArc⟩) ((of host batch).kept chosen)
    (·.index) (fun _ _ => rfl) ?_ ?_ counter ?_ ?_ given
  · intro x _ record known
    obtain ⟨e, found, -, there, same⟩ := known_iff x record known
    exact same ▸ consistent.edgeIndex e found there
  · intro e
    have entry : d.graph.edge? e = d.graph.edges.toList[e.slot]? := Array.getElem?_toList.symm
    rw [edges] at entry
    exact congrArg (Option.map (·.index)) entry
  · intro e e' placed
    have link := hostLink_of_edgeOf? placed
    have inside := (List.getElem?_eq_some_iff.mp link).1
    have remains := edgeOf?_isSome_iff.mp (placed ▸ rfl : (edgeOf? host batch e).isSome = true)
    obtain ⟨-, record, found, -⟩ := remains
    refine ⟨e, Nat.le_refl _, placed, hostStrand e,
      { record with ends := (of host batch).vertexEnds (hostStrand e) }, ?_, ?_, ?_⟩
    · rw [split, List.getElem?_append_left inside, link]
    · exact congrArg (Option.map _) found
    · exact congrArg (Option.map Edge.index) found
  · intro e' x record there known
    obtain ⟨e, -, origin, -, -⟩ := known_iff x record known
    rw [split] at there
    by_cases inside : e'.slot < (hostLinks host batch).length
    · rw [List.getElem?_append_left inside] at there
      obtain ⟨e₀, rfl, -⟩ := mem_hostLinks_iff.mp (List.mem_of_getElem? there)
      exact ⟨e₀, edgeOf?_of_hostLink there⟩
    · rw [List.getElem?_append_right (Nat.not_lt.mp inside)] at there
      have mark := created x (List.mem_of_getElem? there)
      rw [origin] at mark
      cases mark

/-- The host vertices take all places but those of the created vertices. -/
theorem Yields.exists_vertexOf?_iff (yields : (of host batch).Yields host d)
    (grounded : (of host batch).Grounded host) {w : VertexId} :
    (∃ v, (of host batch).vertexOf? v = some w) ↔ d.graph.Contains w ∧ w ∉ d.createdVertices := by
  have order : d.graph.order = (of host batch).leads.length := by
    rw [Graph.order, ← Array.length_toList, yields.vertices, length_stamp]
  rw [Graph.Contains, order, yields.createdVertices, mem_map_mk_iff, mem_positions_iff]
  constructor
  · rintro ⟨v, placed⟩
    obtain ⟨u, -, -, lead⟩ := exists_foremost_lead placed
    refine ⟨(List.getElem?_eq_some_iff.mp lead).1, ?_⟩
    rintro ⟨n, there, mark⟩
    cases lead.symm.trans there
    cases mark
  · rintro ⟨inside, unmarked⟩
    have lead := List.getElem?_eq_getElem inside
    generalize (of host batch).leads[w.slot] = n at lead
    cases n with
    | host u => exact ⟨u, vertexOf?_of_lead grounded lead⟩
    | created p => exact absurd ⟨_, lead, rfl⟩ unmarked

/-- The host edges take all places but those of the created edges. -/
theorem Yields.exists_edgeOf?_iff (yields : (of host batch).Yields host d)
    (grounded : (of host batch).Grounded host) {w : EdgeId} :
    (∃ e, edgeOf? host batch e = some w) ↔ w.slot < d.graph.size ∧ w ∉ d.createdEdges := by
  obtain ⟨chosen, selects, edges, positions, -⟩ := yields.edges
  obtain ⟨rest, split, created⟩ := exists_kept_eq grounded selects
  have size : d.graph.size = ((of host batch).kept chosen).length := by
    rw [Graph.size, ← Array.length_toList, edges, length_stamp]
    rfl
  rw [size, positions, mem_map_mk_iff, mem_positions_iff]
  change _ ↔ _ ∧ ¬ ∃ x, ((of host batch).kept chosen)[w.slot]? = some x ∧ _
  rw [split]
  constructor
  · rintro ⟨e, placed⟩
    have link := hostLink_of_edgeOf? placed
    have inside := (List.getElem?_eq_some_iff.mp link).1
    rw [List.getElem?_append_left inside, link, List.length_append]
    refine ⟨by omega, ?_⟩
    rintro ⟨x, same, mark⟩
    cases same
    cases mark
  · rintro ⟨inside, unmarked⟩
    have front : w.slot < (hostLinks host batch).length := by
      by_contra behind
      have later : (hostLinks host batch ++ rest)[w.slot]? =
          rest[w.slot - (hostLinks host batch).length]? :=
        List.getElem?_append_right (Nat.not_lt.mp behind)
      rw [List.getElem?_eq_getElem inside] at later
      exact unmarked ⟨_, List.getElem?_eq_getElem inside,
        created _ (List.mem_of_getElem? later.symm)⟩
    have link := List.getElem?_eq_getElem front
    obtain ⟨e, same, -⟩ := mem_hostLinks_iff.mp (List.getElem_mem front)
    exact ⟨e, edgeOf?_of_hostLink (link.trans (congrArg some same))⟩

end Blueprint

/-- The creation callbacks only add elements, without naming their indices, and change payloads. -/
structure Rule.AddsOnly (r : Rule D) : Prop where
  vertices : ∀ x ∈ r.addedVertices, ∀ run, x.creation = some run →
    ∀ context v (out : Host D × D.BuildState), out.1.Extension (run context v out).1
  edges : ∀ x ∈ r.addedEdges, ∀ run, x.creation = some run →
    ∀ context e (out : Host D × D.BuildState), out.1.Extension (run context e out).1

theorem Rule.IsSilent.addsOnly {r : Rule D} (silent : r.IsSilent) : r.AddsOnly where
  vertices x hx run declared := by
    rw [silent.1 x hx] at declared
    cases declared
  edges x hx run declared := by
    rw [silent.2 x hx] at declared
    cases declared

/-- In a derivation from the host, every creation callback of the rule relates the graph before it
to the one after it. -/
structure Rule.Creates (r : Rule D) (host : Host D) (R : Host D → Host D → Prop) : Prop where
  vertices : ∀ x ∈ r.addedVertices, ∀ run, x.creation = some run →
    ∀ context v (out : Host D × D.BuildState), context.host = host → R out.1 (run context v out).1
  edges : ∀ x ∈ r.addedEdges, ∀ run, x.creation = some run →
    ∀ context e (out : Host D × D.BuildState), context.host = host → R out.1 (run context e out).1

theorem Rule.AddsOnly.creates {r : Rule D} (adds : r.AddsOnly) (host : Host D) :
    r.Creates host Graph.Extension where
  vertices x hx run declared context v out _ := adds.vertices x hx run declared context v out
  edges x hx run declared context e out _ := adds.edges x hx run declared context e out

namespace Creation

variable {R : Host D → Host D → Prop}

theorem foldl_relates {α σ : Type} {step : Host D × σ → α → Host D × σ} (refl : ∀ g, R g g)
    (trans : ∀ g g' g'', R g g' → R g' g'' → R g g'')
    (each : ∀ (out : Host D × σ) x, R out.1 (step out x).1) (xs : List α) (out : Host D × σ) :
    R out.1 (xs.foldl step out).1 := by
  induction xs generalizing out with
  | nil => exact refl _
  | cons x xs ih => exact trans _ _ _ (each out x) (ih (step out x))

theorem createVertex_relates (refl : ∀ g, R g g) (creates : ∀ r ∈ batch, r.rule.Creates host R)
    (out : Host D × D.BuildState) (x : VertexId × Provenance) :
    R out.1 (createVertex host batch out x).1 := by
  unfold createVertex
  split
  · exact refl _
  · next r found =>
    split
    · exact refl _
    · next creation declared =>
      obtain ⟨added, there, declared⟩ := Option.bind_eq_some_iff.mp declared
      have lawful := creates r (List.mem_of_getElem? found)
      exact lawful.vertices added (List.mem_of_getElem? there) creation declared _ _ out rfl

theorem createEdge_relates (refl : ∀ g, R g g) (creates : ∀ r ∈ batch, r.rule.Creates host R)
    (out : Host D × D.BuildState) (x : EdgeId × Provenance) :
    R out.1 (createEdge host batch out x).1 := by
  unfold createEdge
  split
  · exact refl _
  · next r found =>
    split
    · exact refl _
    · next creation declared =>
      obtain ⟨added, there, declared⟩ := Option.bind_eq_some_iff.mp declared
      have lawful := creates r (List.mem_of_getElem? found)
      exact lawful.edges added (List.mem_of_getElem? there) creation declared _ _ out rfl

/-- What each callback does to the graph at most, all of them do together. -/
theorem run_relates (refl : ∀ g, R g g) (trans : ∀ g g' g'', R g g' → R g' g'' → R g g'')
    (creates : ∀ r ∈ batch, r.rule.Creates host R) (a : Assembly D.Node D.Arc) (state : D.BuildState) :
    R a.graph (run host batch a state).1 :=
  trans _ _ _
    (foldl_relates refl trans (createVertex_relates refl creates) a.createdVertices
      (a.graph, state))
    (foldl_relates refl trans (createEdge_relates refl creates) a.createdEdges _)

theorem extension_run (adds : ∀ r ∈ batch, r.rule.AddsOnly) (a : Assembly D.Node D.Arc)
    (state : D.BuildState) : a.graph.Extension (run host batch a state).1 :=
  run_relates .refl (fun _ _ _ => .trans) (fun r hr => (adds r hr).creates host) a state

end Creation

end GraphSplice
