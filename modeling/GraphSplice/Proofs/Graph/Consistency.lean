import GraphSplice.Graph
import GraphSplice.Proofs.Ends
import Mathlib.Data.List.Basic
import Mathlib.Data.List.Nodup
import Mathlib.Logic.Function.Iterate

/-!
Consistent graphs: edges end at vertices of the graph, the incidence lists repeat the edge table,
and the counters are beyond every index in use. The empty graph is consistent, and every operation
keeps a graph consistent.
-/

namespace GraphSplice

universe u v
variable {N : Type u} {E : Type v}

namespace StableIndex

theorem advance_of_le {counter used : StableIndex} (h : (next used).toNat ≤ counter.toNat) :
    counter.advance used = counter := by
  unfold advance
  rw [if_neg (by omega)]

/-- Handing out the index of the counter moves the counter on. -/
theorem advance_self (counter : StableIndex) : counter.advance counter = counter.next := by
  have bound := counter.toNat_lt
  have moved := toNat_next counter
  unfold advance
  split
  · rfl
  · apply UInt32.toNat_inj.mp
    omega

end StableIndex

namespace Graph

structure Consistent (g : Graph N E) : Prop where
  ends : ∀ e record, g.edge? e = some record →
    g.Contains record.ends.first ∧ g.Contains record.ends.second
  lists : g.incidence.size = g.order
  incident : ∀ v, g.incident v = g.edgeIds.filter fun e =>
    (g.edge? e).any fun record => record.ends.Touches v
  vertexIndex : ∀ v record, g.vertex? v = some record →
    (StableIndex.next record.index).toNat ≤ g.nextVertexIndex.toNat
  edgeIndex : ∀ e record, g.edge? e = some record →
    (StableIndex.next record.index).toNat ≤ g.nextEdgeIndex.toNat

theorem Consistent.contains_get {g : Graph N E} (consistent : g.Consistent) {e : EdgeId}
    {record : Edge E} (found : g.edge? e = some record) (side : Side) :
    g.Contains (record.ends.get side) := by
  cases side with
  | first => exact (consistent.ends e record found).1
  | second => exact (consistent.ends e record found).2

theorem contains_iff {g : Graph N E} {v : VertexId} :
    g.Contains v ↔ ∃ record, g.vertex? v = some record := by
  constructor
  · exact fun h => ⟨_, Array.getElem?_eq_getElem h⟩
  · rintro ⟨record, h⟩
    exact (Array.getElem?_eq_some_iff.mp h).1

theorem edge?_isSome_iff {g : Graph N E} {e : EdgeId} :
    (∃ record, g.edge? e = some record) ↔ e.slot < g.size := by
  constructor
  · rintro ⟨record, h⟩
    exact (Array.getElem?_eq_some_iff.mp h).1
  · exact fun h => ⟨_, Array.getElem?_eq_getElem h⟩

theorem mem_edgeIds {g : Graph N E} {e : EdgeId} : e ∈ g.edgeIds ↔ e.slot < g.size := by
  simp only [edgeIds, List.mem_map, List.mem_range]
  constructor
  · rintro ⟨i, hi, rfl⟩
    exact hi
  · exact fun h => ⟨e.slot, h, rfl⟩

theorem nodup_vertexIds (g : Graph N E) : g.vertexIds.Nodup :=
  List.Nodup.map (fun _ _ same => congrArg Handle.slot same) List.nodup_range

theorem nodup_edgeIds (g : Graph N E) : g.edgeIds.Nodup :=
  List.Nodup.map (fun _ _ same => congrArg Handle.slot same) List.nodup_range

theorem edgeIds_ascending (g : Graph N E) : g.edgeIds.Pairwise (· < ·) := by
  unfold edgeIds
  rw [List.pairwise_map]
  exact List.pairwise_lt_range

theorem mem_incident_iff {g : Graph N E} (consistent : g.Consistent) {v : VertexId} {e : EdgeId} :
    e ∈ g.incident v ↔ ∃ record, g.edge? e = some record ∧ record.ends.Touches v := by
  rw [consistent.incident, List.mem_filter, mem_edgeIds, ← edge?_isSome_iff]
  constructor
  · rintro ⟨⟨record, found⟩, touches⟩
    rw [found] at touches
    exact ⟨record, found, by simpa using touches⟩
  · rintro ⟨record, found, touches⟩
    exact ⟨⟨record, found⟩, by simpa [found] using touches⟩

theorem nodup_incident {g : Graph N E} (consistent : g.Consistent) (v : VertexId) :
    (g.incident v).Nodup := by
  rw [consistent.incident]
  exact g.nodup_edgeIds.filter _

theorem mem_edgesBetween {g : Graph N E} {a b : VertexId} {e : EdgeId}
    (h : e ∈ g.edgesBetween a b) : ∃ record, g.edge? e = some record ∧ record.ends.Joins a b := by
  have found := (List.mem_filter.mp h).2
  rw [Option.any_eq_true] at found
  obtain ⟨record, found, joins⟩ := found
  exact ⟨record, found, by simpa using joins⟩

theorem mem_edgesBetween_iff {g : Graph N E} (consistent : g.Consistent) {a b : VertexId}
    {e : EdgeId} : e ∈ g.edgesBetween a b ↔
      ∃ record, g.edge? e = some record ∧ record.ends.Joins a b := by
  constructor
  · exact mem_edgesBetween
  · rintro ⟨record, found, joins⟩
    unfold edgesBetween
    rw [List.mem_filter, mem_incident_iff consistent]
    exact ⟨⟨record, found, joins.touches.1⟩, by simp [found, joins]⟩

/-- The edges between two vertices, picked from all edges. -/
theorem edgesBetween_eq_filter {g : Graph N E} (consistent : g.Consistent) (a b : VertexId) :
    g.edgesBetween a b = g.edgeIds.filter fun e =>
      (g.edge? e).any fun record => record.ends.Joins a b := by
  unfold edgesBetween
  rw [consistent.incident, List.filter_filter]
  apply List.filter_congr
  intro e _
  cases g.edge? e with
  | none => rfl
  | some record =>
    simp only [Option.any_some, Bool.and_eq_left_iff_imp, decide_eq_true_eq]
    exact fun joins => joins.touches.1

theorem edgesBetween_comm {g : Graph N E} (consistent : g.Consistent) (a b : VertexId) :
    g.edgesBetween a b = g.edgesBetween b a := by
  rw [edgesBetween_eq_filter consistent, edgesBetween_eq_filter consistent]
  simp only [Ends.joins_comm]

theorem edgesBetween_ascending {g : Graph N E} (consistent : g.Consistent) (a b : VertexId) :
    (g.edgesBetween a b).Pairwise (· < ·) := by
  rw [edgesBetween_eq_filter consistent]
  exact g.edgeIds_ascending.filter _

theorem Consistent.empty : (empty : Graph N E).Consistent where
  ends e record h := by simp [Graph.empty, edge?] at h
  lists := rfl
  incident v := by simp [Graph.empty, Graph.incident, edgeIds, size]
  vertexIndex v record h := by simp [Graph.empty, vertex?] at h
  edgeIndex e record h := by simp [Graph.empty, edge?] at h

theorem Consistent.emptyAfter (g : Graph N E) : (g.emptyAfter : Graph N E).Consistent where
  ends e record h := by simp [Graph.emptyAfter, edge?] at h
  lists := rfl
  incident v := by simp [Graph.emptyAfter, Graph.incident, edgeIds, size]
  vertexIndex v record h := by simp [Graph.emptyAfter, vertex?] at h
  edgeIndex e record h := by simp [Graph.emptyAfter, edge?] at h

/-- A consistent graph is told by its vertices, its edges and its counters. -/
theorem Consistent.eq_of_tables {g g' : Graph N E} (consistent : g.Consistent)
    (consistent' : g'.Consistent) (vertices : g.vertices = g'.vertices)
    (edges : g.edges = g'.edges) (nextVertexIndex : g.nextVertexIndex = g'.nextVertexIndex)
    (nextEdgeIndex : g.nextEdgeIndex = g'.nextEdgeIndex) : g = g' := by
  have lists : g.incidence = g'.incidence := by
    have sizes : g.incidence.size = g'.incidence.size := by
      rw [consistent.lists, consistent'.lists, order, order, vertices]
    apply Array.ext sizes
    intro i inside inside'
    have same : g.incident ⟨i⟩ = g'.incident ⟨i⟩ := by
      rw [consistent.incident, consistent'.incident]
      simp only [edgeIds, edge?, size, edges]
    unfold Graph.incident at same
    rwa [Array.getElem?_eq_getElem inside, Array.getElem?_eq_getElem inside'] at same
  obtain ⟨_, _, _, _, _⟩ := g
  obtain ⟨_, _, _, _, _⟩ := g'
  simp only at vertices edges lists nextVertexIndex nextEdgeIndex
  rw [vertices, edges, lists, nextVertexIndex, nextEdgeIndex]

theorem vertex?_addVertexAt (g : Graph N E) (index : StableIndex) (payload : N) (v : VertexId) :
    (g.addVertexAt index payload).vertex? v =
      if v.slot = g.order then some ⟨index, payload⟩ else g.vertex? v := by
  unfold vertex? addVertexAt
  rw [Array.getElem?_push]
  rfl

theorem Consistent.addVertexAt {g : Graph N E} (consistent : g.Consistent) (index : StableIndex)
    (payload : N) : (g.addVertexAt index payload).Consistent := by
  constructor
  case ends =>
    intro e record h
    obtain ⟨first, second⟩ := consistent.ends e record h
    simp only [Contains, order_addVertexAt] at *
    omega
  case lists => simp [Graph.addVertexAt, order, consistent.lists]
  case incident =>
    intro v
    have lists : (g.addVertexAt index payload).incident v = g.incident v := by
      simp only [Graph.incident, Graph.addVertexAt, Array.getElem?_push]
      split
      · next last =>
        have outside : g.incidence.size ≤ v.slot := by omega
        simp [Array.getElem?_eq_none outside]
      · rfl
    rw [lists, consistent.incident v]
    rfl
  case vertexIndex =>
    intro v record h
    rw [vertex?_addVertexAt] at h
    have advanced := StableIndex.toNat_advance g.nextVertexIndex index
    change _ ≤ (g.nextVertexIndex.advance index).toNat
    split at h
    · cases h
      rw [advanced]
      exact Nat.le_max_right _ _
    · have before := consistent.vertexIndex v record h
      omega
  case edgeIndex => exact consistent.edgeIndex

theorem edge?_addEdgeAt {g g' : Graph N E} {a b : VertexId} {index : StableIndex} {payload : E}
    (h : g.addEdgeAt a b index payload = .ok g') (e : EdgeId) :
    g'.edge? e = if e.slot = g.size then some ⟨index, ⟨a, b⟩, payload⟩ else g.edge? e := by
  unfold addEdgeAt at h
  split at h
  · cases h
  · split at h
    · cases h
    · cases h
      unfold edge?
      rw [Array.getElem?_push]
      rfl

/-- Everything that an added edge leaves as it was. -/
structure SameVertices (g g' : Graph N E) : Prop where
  vertices : g'.vertices = g.vertices
  counter : g'.nextVertexIndex = g.nextVertexIndex

theorem sameVertices_addEdgeAt {g g' : Graph N E} {a b : VertexId} {index : StableIndex}
    {payload : E} (h : g.addEdgeAt a b index payload = .ok g') : SameVertices g g' := by
  unfold addEdgeAt at h
  split at h
  · cases h
  · split at h
    · cases h
    · cases h
      exact ⟨rfl, rfl⟩

theorem incident_listAt (incidence : Array (List EdgeId)) (v u : VertexId) (e : EdgeId) :
    ((listAt incidence v e)[u.slot]?).getD [] =
      if u = v ∧ u.slot < incidence.size then (incidence[u.slot]?).getD [] ++ [e]
      else (incidence[u.slot]?).getD [] := by
  unfold listAt
  rw [Array.getElem?_modify]
  by_cases same : u = v
  · subst same
    by_cases inside : u.slot < incidence.size <;> simp [inside]
  · have other : v.slot ≠ u.slot := fun h => same (Handle.ext_slot h.symm)
    simp [same, other]

theorem incident_addEdgeAt {g g' : Graph N E} (consistent : g.Consistent) {a b : VertexId}
    {index : StableIndex} {payload : E} (h : g.addEdgeAt a b index payload = .ok g')
    (v : VertexId) :
    g'.incident v = if (Ends.mk a b).Touches v then g.incident v ++ [g.nextEdge]
      else g.incident v := by
  obtain ⟨ha, hb⟩ := addEdgeAt_isOk_iff.mp ⟨g', h⟩
  have sizeA : a.slot < g.incidence.size := by rw [consistent.lists]; exact ha
  have sizeB : b.slot < g.incidence.size := by rw [consistent.lists]; exact hb
  have sizeB' : b.slot < (listAt g.incidence a g.nextEdge).size := by
    simpa [listAt] using sizeB
  unfold addEdgeAt at h
  rw [if_neg (by simpa using ha), if_neg (by simpa using hb)] at h
  cases h
  unfold Graph.incident
  simp only [Ends.Touches]
  by_cases loop : a = b
  · subst loop
    rw [if_pos rfl, incident_listAt]
    by_cases hv : v = a
    · subst hv
      simp [sizeA]
    · simp [hv, Ne.symm hv]
  · rw [if_neg loop, incident_listAt, incident_listAt]
    by_cases hv : v = a
    · subst hv
      simp [loop, sizeA]
    · by_cases hv' : v = b
      · subst hv'
        simp [hv, sizeB']
      · simp [hv, hv', Ne.symm hv, Ne.symm hv']

theorem edgeIds_addEdgeAt {g g' : Graph N E} {a b : VertexId} {index : StableIndex} {payload : E}
    (h : g.addEdgeAt a b index payload = .ok g') : g'.edgeIds = g.edgeIds ++ [g.nextEdge] := by
  unfold addEdgeAt at h
  split at h
  · cases h
  · split at h
    · cases h
    · cases h
      simp [edgeIds, size, List.range_succ, nextEdge]

theorem Consistent.addEdgeAt {g g' : Graph N E} (consistent : g.Consistent) {a b : VertexId}
    {index : StableIndex} {payload : E} (h : g.addEdgeAt a b index payload = .ok g') :
    g'.Consistent := by
  obtain ⟨ha, hb⟩ := addEdgeAt_isOk_iff.mp ⟨g', h⟩
  have edges := edge?_addEdgeAt h
  obtain ⟨sameVertices, sameCounter⟩ := sameVertices_addEdgeAt h
  have sameContains : ∀ v, g'.Contains v ↔ g.Contains v := by
    intro v
    simp [Contains, order, sameVertices]
  constructor
  case ends =>
    intro e record found
    rw [edges] at found
    rw [sameContains, sameContains]
    split at found
    · cases found
      exact ⟨ha, hb⟩
    · exact consistent.ends e record found
  case lists =>
    have sizes : g'.incidence.size = g.incidence.size := by
      unfold Graph.addEdgeAt at h
      rw [if_neg (by simpa using ha), if_neg (by simpa using hb)] at h
      cases h
      simp only [listAt]
      split <;> simp
    rw [sizes, consistent.lists]
    simp [order, sameVertices]
  case incident =>
    intro v
    rw [incident_addEdgeAt consistent h, edgeIds_addEdgeAt h, List.filter_append]
    have old : ∀ e ∈ g.edgeIds, ((g'.edge? e).any fun record => record.ends.Touches v) =
        (g.edge? e).any fun record => record.ends.Touches v := by
      intro e he
      rw [edges, if_neg (Nat.ne_of_lt (mem_edgeIds.mp he))]
    rw [List.filter_congr old, ← consistent.incident v]
    have new : g'.edge? g.nextEdge = some ⟨index, ⟨a, b⟩, payload⟩ := by
      rw [edges]
      exact if_pos rfl
    by_cases touches : (Ends.mk a b).Touches v
    · simp [new, touches]
    · simp [new, touches]
  case vertexIndex =>
    intro v record found
    rw [sameCounter]
    unfold vertex? at found
    rw [sameVertices] at found
    exact consistent.vertexIndex v record found
  case edgeIndex =>
    intro e record found
    have counter : g'.nextEdgeIndex = g.nextEdgeIndex.advance index := by
      unfold Graph.addEdgeAt at h
      rw [if_neg (by simpa using ha), if_neg (by simpa using hb)] at h
      cases h
      rfl
    have advanced := StableIndex.toNat_advance g.nextEdgeIndex index
    rw [counter, advanced]
    rw [edges] at found
    split at found
    · cases found
      exact Nat.le_max_right _ _
    · exact Nat.le_trans (consistent.edgeIndex e record found) (Nat.le_max_left _ _)

/-- What a graph is but for its payloads. -/
structure SameShape (g g' : Graph N E) : Prop where
  vertices : ∀ v, (g'.vertex? v).map (·.index) = (g.vertex? v).map (·.index)
  edges : ∀ e, (g'.edge? e).map (fun r => (r.index, r.ends)) =
    (g.edge? e).map fun r => (r.index, r.ends)
  order : g'.order = g.order
  size : g'.size = g.size
  incidence : g'.incidence = g.incidence
  nextVertexIndex : g'.nextVertexIndex = g.nextVertexIndex
  nextEdgeIndex : g'.nextEdgeIndex = g.nextEdgeIndex

theorem SameShape.refl (g : Graph N E) : SameShape g g :=
  ⟨fun _ => rfl, fun _ => rfl, rfl, rfl, rfl, rfl, rfl⟩

theorem SameShape.trans {g g' g'' : Graph N E} (h : SameShape g g') (h' : SameShape g' g'') :
    SameShape g g'' where
  vertices v := (h'.vertices v).trans (h.vertices v)
  edges e := (h'.edges e).trans (h.edges e)
  order := h'.order.trans h.order
  size := h'.size.trans h.size
  incidence := h'.incidence.trans h.incidence
  nextVertexIndex := h'.nextVertexIndex.trans h.nextVertexIndex
  nextEdgeIndex := h'.nextEdgeIndex.trans h.nextEdgeIndex

theorem Consistent.of_sameShape {g g' : Graph N E} (consistent : g.Consistent)
    (same : SameShape g g') : g'.Consistent := by
  have edges : ∀ e record', g'.edge? e = some record' →
      ∃ record, g.edge? e = some record ∧ record.index = record'.index ∧
        record.ends = record'.ends := by
    intro e record' h
    have shape := same.edges e
    rw [h] at shape
    obtain ⟨record, found, equal⟩ := Option.map_eq_some_iff.mp shape.symm
    exact ⟨record, found, congrArg Prod.fst equal, congrArg Prod.snd equal⟩
  constructor
  case ends =>
    intro e record' h
    obtain ⟨record, found, -, ends⟩ := edges e record' h
    have inside := consistent.ends e record found
    simpa [Contains, same.order, ends] using inside
  case lists => rw [same.incidence, consistent.lists, same.order]
  case incident =>
    intro v
    have lists : g'.incident v = g.incident v := by
      unfold Graph.incident
      rw [same.incidence]
    rw [lists, consistent.incident v]
    simp only [edgeIds, same.size]
    apply List.filter_congr
    intro e _
    have shape := same.edges e
    cases found : g.edge? e with
    | none =>
      rw [found, Option.map_none, Option.map_eq_none_iff] at shape
      rw [shape]
    | some record =>
      rw [found, Option.map_some] at shape
      obtain ⟨record', found', equal⟩ := Option.map_eq_some_iff.mp shape
      rw [found']
      simp only [Prod.mk.injEq] at equal
      simp [equal.2]
  case vertexIndex =>
    intro v record' h
    have shape := same.vertices v
    rw [h] at shape
    obtain ⟨record, found, equal⟩ := Option.map_eq_some_iff.mp shape.symm
    have index : record.index = record'.index := equal
    rw [same.nextVertexIndex, ← index]
    exact consistent.vertexIndex v record found
  case edgeIndex =>
    intro e record' h
    obtain ⟨record, found, index, -⟩ := edges e record' h
    rw [same.nextEdgeIndex, ← index]
    exact consistent.edgeIndex e record found

theorem vertex?_modifyVertex (g : Graph N E) (v : VertexId) (f : N → N) (u : VertexId) :
    (g.modifyVertex v f).vertex? u =
      if u = v then (g.vertex? u).map fun r => { r with payload := f r.payload } else g.vertex? u := by
  unfold vertex? modifyVertex
  rw [Array.getElem?_modify]
  by_cases same : u = v
  · simp [same]
  · rw [if_neg same, if_neg fun slot => same (Handle.ext_slot slot.symm)]

theorem edge?_modifyEdge (g : Graph N E) (e : EdgeId) (f : E → E) (d : EdgeId) :
    (g.modifyEdge e f).edge? d =
      if d = e then (g.edge? d).map fun r => { r with payload := f r.payload } else g.edge? d := by
  unfold edge? modifyEdge
  rw [Array.getElem?_modify]
  by_cases same : d = e
  · simp [same]
  · rw [if_neg same, if_neg fun slot => same (Handle.ext_slot slot.symm)]

theorem sameShape_modifyVertex (g : Graph N E) (v : VertexId) (f : N → N) :
    SameShape g (g.modifyVertex v f) where
  vertices u := by
    unfold vertex? modifyVertex
    rw [Array.getElem?_modify]
    split <;> simp [Function.comp_def]
  edges _ := rfl
  order := by simp [Graph.order, modifyVertex]
  size := rfl
  incidence := rfl
  nextVertexIndex := rfl
  nextEdgeIndex := rfl

theorem sameShape_modifyEdge (g : Graph N E) (e : EdgeId) (f : E → E) :
    SameShape g (g.modifyEdge e f) where
  vertices _ := rfl
  edges d := by
    unfold edge? modifyEdge
    rw [Array.getElem?_modify]
    split <;> simp [Function.comp_def]
  order := rfl
  size := by simp [Graph.size, modifyEdge]
  incidence := rfl
  nextVertexIndex := rfl
  nextEdgeIndex := rfl

/-- The graphs that the operations on graphs build. -/
inductive Built : Graph N E → Prop
  | empty : Built .empty
  | emptyAfter {g : Graph N E} : Built g → Built g.emptyAfter
  | addVertexAt {g : Graph N E} (index : StableIndex) (payload : N) :
      Built g → Built (g.addVertexAt index payload)
  | addEdgeAt {g g' : Graph N E} {a b : VertexId} {index : StableIndex} {payload : E} :
      Built g → g.addEdgeAt a b index payload = .ok g' → Built g'
  | modifyVertex {g : Graph N E} (v : VertexId) (f : N → N) : Built g → Built (g.modifyVertex v f)
  | modifyEdge {g : Graph N E} (e : EdgeId) (f : E → E) : Built g → Built (g.modifyEdge e f)

theorem Built.consistent {g : Graph N E} (built : g.Built) : g.Consistent := by
  induction built with
  | empty => exact .empty
  | emptyAfter _ _ => exact .emptyAfter _
  | addVertexAt index payload _ ih => exact ih.addVertexAt index payload
  | addEdgeAt _ h ih => exact ih.addEdgeAt h
  | modifyVertex v f _ ih => exact ih.of_sameShape (sameShape_modifyVertex _ v f)
  | modifyEdge e f _ ih => exact ih.of_sameShape (sameShape_modifyEdge _ e f)

end Graph

end GraphSplice
