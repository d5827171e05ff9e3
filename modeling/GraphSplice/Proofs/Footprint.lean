import GraphSplice.Footprint
import GraphSplice.Proofs.Application
import GraphSplice.Proofs.Ascending
import GraphSplice.Proofs.Blueprint

/-!
What stands in a footprint, and what independence means: neither application cuts anything that
the other one binds.
-/

namespace GraphSplice

variable {D : Domain} {host : Host D} {r s : Resolved D}

theorem cutsVertex_singleton_iff {v : VertexId} : CutsVertex [r] v ↔
    ∃ x ∈ r.rule.vertices.zip r.occurrence.vertices, x.1.fate.isCut = true ∧ x.2 = v := by
  simp [CutsVertex]

theorem not_cutsVertex_of_kept {batch : List (Resolved D)}
    (kept : ∀ r ∈ batch, ∀ x ∈ r.rule.vertices, x.fate.isCut = false) (v : VertexId) :
    ¬ CutsVertex batch v := by
  rintro ⟨r, hr, x, hx, cut, -⟩
  rw [kept r hr x.1 (List.of_mem_zip hx).1] at cut
  cases cut

theorem cutsEdge_singleton_iff {e : EdgeId} : CutsEdge [r] e ↔
    ∃ x ∈ r.rule.edges.zip r.occurrence.edges, x.1.fate.isCut = true ∧ x.2 = e := by
  simp [CutsEdge]

namespace Footprint

/-- The sets are ascending lists. -/
structure Ordered (f : Footprint) : Prop where
  verticesRead : f.verticesRead.Pairwise (· < ·)
  verticesWritten : f.verticesWritten.Pairwise (· < ·)
  edgesRead : f.edgesRead.Pairwise (· < ·)
  edgesWritten : f.edgesWritten.Pairwise (· < ·)

theorem ordered_empty : Ordered empty := ⟨.nil, .nil, .nil, .nil⟩

theorem Ordered.touchVertex {f : Footprint} (ordered : f.Ordered)
    (x : MatchedVertex D × VertexId) : (f.touchVertex host x).Ordered := by
  unfold Footprint.touchVertex
  split
  · exact ⟨ordered.verticesRead, Ascending.insert_pairwise ordered.verticesWritten,
      ordered.edgesRead, Ascending.insertAll_pairwise ordered.edgesWritten⟩
  · exact ⟨Ascending.insert_pairwise ordered.verticesRead, ordered.verticesWritten,
      ordered.edgesRead, ordered.edgesWritten⟩

theorem Ordered.touchEdge {f : Footprint} (ordered : f.Ordered) (x : MatchedEdge D × EdgeId) :
    (f.touchEdge x).Ordered := by
  unfold Footprint.touchEdge
  split
  · exact ⟨ordered.verticesRead, ordered.verticesWritten, ordered.edgesRead,
      Ascending.insert_pairwise ordered.edgesWritten⟩
  · exact ⟨ordered.verticesRead, ordered.verticesWritten,
      Ascending.insert_pairwise ordered.edgesRead, ordered.edgesWritten⟩

theorem ordered_of (host : Host D) (r : Resolved D) : (of host r).Ordered := by
  have vertices : ∀ (xs : List (MatchedVertex D × VertexId)) (f : Footprint), f.Ordered →
      (xs.foldl (touchVertex host) f).Ordered := by
    intro xs
    induction xs with
    | nil => exact fun f ordered => ordered
    | cons x xs ih => exact fun f ordered => ih _ (ordered.touchVertex x)
  have edges : ∀ (xs : List (MatchedEdge D × EdgeId)) (f : Footprint), f.Ordered →
      (xs.foldl touchEdge f).Ordered := by
    intro xs
    induction xs with
    | nil => exact fun f ordered => ordered
    | cons x xs ih => exact fun f ordered => ih _ (ordered.touchEdge x)
  exact edges _ _ (vertices _ _ ordered_empty)

/-! ## Members -/

theorem mem_foldl_touchVertex (xs : List (MatchedVertex D × VertexId)) (f : Footprint) :
    let after := xs.foldl (touchVertex host) f
    (∀ v, v ∈ after.verticesRead ↔
      v ∈ f.verticesRead ∨ ∃ x ∈ xs, x.1.fate.isCut = false ∧ x.2 = v) ∧
    (∀ v, v ∈ after.verticesWritten ↔
      v ∈ f.verticesWritten ∨ ∃ x ∈ xs, x.1.fate.isCut = true ∧ x.2 = v) ∧
    (∀ e, e ∈ after.edgesRead ↔ e ∈ f.edgesRead) ∧
    (∀ e, e ∈ after.edgesWritten ↔
      e ∈ f.edgesWritten ∨ ∃ x ∈ xs, x.1.fate.isCut = true ∧ e ∈ host.incident x.2) := by
  induction xs generalizing f with
  | nil => simp
  | cons x xs ih =>
    obtain ⟨read, written, edgesRead, edgesWritten⟩ := ih (touchVertex host f x)
    simp only [List.foldl_cons]
    refine ⟨fun v => ?_, fun v => ?_, fun e => ?_, fun e => ?_⟩
    · rw [read, List.exists_mem_cons_iff, ← or_assoc]
      apply or_congr _ Iff.rfl
      unfold touchVertex
      cases fate : x.1.fate.isCut with
      | true => simp
      | false => simp [Ascending.mem_insert, @eq_comm _ x.2, or_comm]
    · rw [written, List.exists_mem_cons_iff, ← or_assoc]
      apply or_congr _ Iff.rfl
      unfold touchVertex
      cases fate : x.1.fate.isCut with
      | true => simp [Ascending.mem_insert, @eq_comm _ x.2, or_comm]
      | false => simp
    · rw [edgesRead]
      unfold touchVertex
      split <;> rfl
    · rw [edgesWritten, List.exists_mem_cons_iff, ← or_assoc]
      apply or_congr _ Iff.rfl
      unfold touchVertex
      cases fate : x.1.fate.isCut with
      | true => simp [Ascending.mem_insertAll]
      | false => simp

theorem mem_foldl_touchEdge (xs : List (MatchedEdge D × EdgeId)) (f : Footprint) :
    let after := xs.foldl touchEdge f
    after.verticesRead = f.verticesRead ∧ after.verticesWritten = f.verticesWritten ∧
    (∀ e, e ∈ after.edgesRead ↔
      e ∈ f.edgesRead ∨ ∃ x ∈ xs, x.1.fate.isCut = false ∧ x.2 = e) ∧
    (∀ e, e ∈ after.edgesWritten ↔
      e ∈ f.edgesWritten ∨ ∃ x ∈ xs, x.1.fate.isCut = true ∧ x.2 = e) := by
  induction xs generalizing f with
  | nil => simp
  | cons x xs ih =>
    obtain ⟨verticesRead, verticesWritten, read, written⟩ := ih (touchEdge f x)
    simp only [List.foldl_cons]
    refine ⟨?_, ?_, fun e => ?_, fun e => ?_⟩
    · rw [verticesRead]
      unfold touchEdge
      split <;> rfl
    · rw [verticesWritten]
      unfold touchEdge
      split <;> rfl
    · rw [read, List.exists_mem_cons_iff, ← or_assoc]
      apply or_congr _ Iff.rfl
      unfold touchEdge
      cases fate : x.1.fate.isCut with
      | true => simp
      | false => simp [Ascending.mem_insert, @eq_comm _ x.2, or_comm]
    · rw [written, List.exists_mem_cons_iff, ← or_assoc]
      apply or_congr _ Iff.rfl
      unfold touchEdge
      cases fate : x.1.fate.isCut with
      | true => simp [Ascending.mem_insert, @eq_comm _ x.2, or_comm]
      | false => simp

theorem mem_verticesWritten_iff {v : VertexId} :
    v ∈ (of host r).verticesWritten ↔ CutsVertex [r] v := by
  rw [cutsVertex_singleton_iff, of, (mem_foldl_touchEdge _ _).2.1, (mem_foldl_touchVertex _ _).2.1]
  simp [empty]

theorem mem_verticesRead_iff {v : VertexId} : v ∈ (of host r).verticesRead ↔
    ∃ x ∈ r.rule.vertices.zip r.occurrence.vertices, x.1.fate.isCut = false ∧ x.2 = v := by
  rw [of, (mem_foldl_touchEdge _ _).1, (mem_foldl_touchVertex _ _).1]
  simp [empty]

theorem mem_edgesWritten_iff {e : EdgeId} : e ∈ (of host r).edgesWritten ↔
    CutsEdge [r] e ∨ ∃ v, CutsVertex [r] v ∧ e ∈ host.incident v := by
  rw [cutsEdge_singleton_iff, of, (mem_foldl_touchEdge _ _).2.2.2,
    (mem_foldl_touchVertex _ _).2.2.2]
  simp only [cutsVertex_singleton_iff]
  constructor
  · rintro ((none | ⟨x, hx, cut, incident⟩) | there)
    · cases none
    · exact .inr ⟨x.2, ⟨x, hx, cut, rfl⟩, incident⟩
    · exact .inl there
  · rintro (there | ⟨v, ⟨x, hx, cut, rfl⟩, incident⟩)
    · exact .inr there
    · exact .inl (.inr ⟨x, hx, cut, incident⟩)

theorem mem_edgesRead_iff {e : EdgeId} : e ∈ (of host r).edgesRead ↔
    ∃ x ∈ r.rule.edges.zip r.occurrence.edges, x.1.fate.isCut = false ∧ x.2 = e := by
  rw [of, (mem_foldl_touchEdge _ _).2.2.1, (mem_foldl_touchVertex _ _).2.2.1]
  simp [empty]

/-! ## Independence -/

/-- What the first footprint writes, the second one neither writes nor reads. -/
structure Avoids (f g : Footprint) : Prop where
  vertices : ∀ v ∈ f.verticesWritten, v ∉ g.verticesWritten ∧ v ∉ g.verticesRead
  edges : ∀ e ∈ f.edgesWritten, e ∉ g.edgesWritten ∧ e ∉ g.edgesRead

variable {f g : Footprint}

/-- Independence is that neither writes what the other one writes or reads. -/
theorem independent_iff (f_ordered : f.Ordered) (g_ordered : g.Ordered) :
    f.independent g = true ↔ f.Avoids g ∧ g.Avoids f := by
  simp only [independent, Bool.not_eq_true', Bool.or_eq_false_iff,
    Ascending.meets_eq_false_iff f_ordered.verticesWritten g_ordered.verticesWritten,
    Ascending.meets_eq_false_iff f_ordered.verticesWritten g_ordered.verticesRead,
    Ascending.meets_eq_false_iff g_ordered.verticesWritten f_ordered.verticesRead,
    Ascending.meets_eq_false_iff f_ordered.edgesWritten g_ordered.edgesWritten,
    Ascending.meets_eq_false_iff f_ordered.edgesWritten g_ordered.edgesRead,
    Ascending.meets_eq_false_iff g_ordered.edgesWritten f_ordered.edgesRead]
  constructor
  · rintro ⟨⟨⟨⟨⟨written, read⟩, read'⟩, writtenEdge⟩, readEdge⟩, readEdge'⟩
    exact ⟨⟨fun v hv => ⟨written v hv, read v hv⟩, fun e he => ⟨writtenEdge e he, readEdge e he⟩⟩,
      ⟨fun v hv => ⟨fun hv' => written v hv' hv, read' v hv⟩,
        fun e he => ⟨fun he' => writtenEdge e he' he, readEdge' e he⟩⟩⟩
  · rintro ⟨forth, back⟩
    exact ⟨⟨⟨⟨⟨fun v hv => (forth.vertices v hv).1, fun v hv => (forth.vertices v hv).2⟩,
      fun v hv => (back.vertices v hv).2⟩, fun e he => (forth.edges e he).1⟩,
      fun e he => (forth.edges e he).2⟩, fun e he => (back.edges e he).2⟩

theorem independent_symm (f_ordered : f.Ordered) (g_ordered : g.Ordered)
    (h : f.independent g = true) : g.independent f = true :=
  (independent_iff g_ordered f_ordered).mpr ((independent_iff f_ordered g_ordered).mp h).symm

end Footprint

/-- The first application cuts nothing that the second one binds. -/
structure Resolved.Spares (host : Host D) (r s : Resolved D) : Prop where
  vertices : ∀ v ∈ s.occurrence.vertices, ¬ CutsVertex [r] v
  edges : ∀ e ∈ s.occurrence.edges, Blueprint.Remains host [r] e

theorem Resolved.Valid.zip_vertex (valid : s.Valid host) {v : VertexId}
    (hv : v ∈ s.occurrence.vertices) :
    ∃ x, (x, v) ∈ s.rule.vertices.zip s.occurrence.vertices := by
  obtain ⟨i, found⟩ := List.getElem?_of_mem hv
  have inside : i < s.rule.vertices.length := by
    rw [← valid.arity]
    exact (List.getElem?_eq_some_iff.mp found).1
  refine ⟨s.rule.vertices[i], List.mem_of_getElem? (i := i) ?_⟩
  rw [List.getElem?_zip_eq_some]
  exact ⟨List.getElem?_eq_getElem inside, found⟩

theorem Resolved.Valid.zip_edge (valid : s.Valid host) {e : EdgeId}
    (he : e ∈ s.occurrence.edges) : ∃ x, (x, e) ∈ s.rule.edges.zip s.occurrence.edges := by
  obtain ⟨i, found⟩ := List.getElem?_of_mem he
  have inside : i < s.rule.edges.length := by
    rw [← valid.edgeArity]
    exact (List.getElem?_eq_some_iff.mp found).1
  refine ⟨s.rule.edges[i], List.mem_of_getElem? (i := i) ?_⟩
  rw [List.getElem?_zip_eq_some]
  exact ⟨List.getElem?_eq_getElem inside, found⟩

namespace Footprint

/-- Independent applications spare what the other one binds. -/
theorem spares_of_independent (consistent : host.Consistent) (valid : s.Valid host)
    (h : (of host r).independent (of host s) = true) : r.Spares host s := by
  have avoids := ((independent_iff (ordered_of host r) (ordered_of host s)).mp h).1
  have vertex : ∀ v, CutsVertex [r] v → v ∉ s.occurrence.vertices := by
    intro v cut bound
    obtain ⟨unwritten, unread⟩ := avoids.vertices v (mem_verticesWritten_iff.mpr cut)
    obtain ⟨x, hx⟩ := valid.zip_vertex bound
    cases fate : x.fate.isCut with
    | true =>
      exact unwritten (mem_verticesWritten_iff.mpr (cutsVertex_singleton_iff.mpr ⟨_, hx, fate, rfl⟩))
    | false => exact unread (mem_verticesRead_iff.mpr ⟨_, hx, fate, rfl⟩)
  have edge : ∀ e ∈ s.occurrence.edges, e ∉ (of host r).edgesWritten := by
    intro e bound written
    obtain ⟨unwritten, unread⟩ := avoids.edges e written
    obtain ⟨x, hx⟩ := valid.zip_edge bound
    cases fate : x.fate.isCut with
    | true =>
      exact unwritten (mem_edgesWritten_iff.mpr
        (.inl (cutsEdge_singleton_iff.mpr ⟨_, hx, fate, rfl⟩)))
    | false => exact unread (mem_edgesRead_iff.mpr ⟨_, hx, fate, rfl⟩)
  refine ⟨fun v bound cut => vertex v cut bound, ?_⟩
  intro e bound
  have untouched := fun written => edge e bound (mem_edgesWritten_iff.mpr written)
  obtain ⟨j, found⟩ := List.getElem?_of_mem bound
  have inside : j < s.rule.edges.length := by
    rw [← valid.edgeArity]
    exact (List.getElem?_eq_some_iff.mp found).1
  obtain ⟨record, ends, there, -⟩ :=
    valid.edges j _ e (List.getElem?_eq_getElem inside) found
  refine ⟨fun cut => untouched (.inl cut), record, there, ?_, ?_⟩
  · intro cut
    exact untouched (.inr ⟨_, cut, (Graph.mem_incident_iff consistent).mpr
      ⟨record, there, .inl rfl⟩⟩)
  · intro cut
    exact untouched (.inr ⟨_, cut, (Graph.mem_incident_iff consistent).mpr
      ⟨record, there, .inr rfl⟩⟩)

end Footprint

end GraphSplice
