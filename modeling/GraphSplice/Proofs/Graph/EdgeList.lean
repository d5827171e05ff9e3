import GraphSplice.Proofs.Ends
import GraphSplice.Proofs.Graph.Consistency
import GraphSplice.Proofs.Lists

/-!
The list of the ends of all edges. On a consistent graph it tells how many edges meet a vertex, how
many join two vertices, and which vertices are neighbours.
-/

namespace GraphSplice.Graph

variable {N E : Type} {g : Graph N E} {u v : VertexId}

def ends? (g : Graph N E) (e : EdgeId) : Option (Ends VertexId) := (g.edge? e).map (·.ends)

/-- The ends of all edges. -/
def ends (g : Graph N E) : List (Ends VertexId) := g.edges.toList.map (·.ends)

@[simp] theorem length_ends (g : Graph N E) : g.ends.length = g.size := List.length_map _

theorem ends?_isSome_iff {e : EdgeId} : (∃ x, g.ends? e = some x) ↔ e.slot < g.size := by
  rw [← edge?_isSome_iff]
  simp [ends?]

theorem ends?_eq_getElem? (g : Graph N E) (e : EdgeId) : g.ends? e = g.ends[e.slot]? := by
  rw [ends, List.getElem?_map, Array.getElem?_toList]
  rfl

theorem ends_eq_filterMap (g : Graph N E) : g.ends = g.edgeIds.filterMap g.ends? := by
  have all : g.edgeIds.filterMap (fun e => g.edges.toList[e.slot]?) = g.edges.toList :=
    filterMap_handles g.edges.toList
  unfold ends
  rw [← all, List.map_filterMap]
  refine List.filterMap_congr fun e _ => ?_
  rw [Array.getElem?_toList]
  rfl

theorem SameShape.ends_eq {g' : Graph N E} (same : SameShape g g') : g'.ends = g.ends := by
  rw [ends_eq_filterMap, ends_eq_filterMap, edgeIds, same.size]
  refine List.filterMap_congr fun e _ => ?_
  have edge := congrArg (Option.map Prod.snd) (same.edges e)
  rwa [Option.map_map, Option.map_map] at edge

theorem mem_ends_iff {x : Ends VertexId} :
    x ∈ g.ends ↔ ∃ e record, g.edge? e = some record ∧ record.ends = x := by
  unfold ends
  rw [List.mem_map]
  constructor
  · rintro ⟨record, member, same⟩
    obtain ⟨i, found⟩ := Array.getElem?_of_mem (Array.mem_toList_iff.mp member)
    exact ⟨⟨i⟩, record, found, same⟩
  · rintro ⟨e, record, found, same⟩
    exact ⟨record, Array.mem_toList_iff.mpr (Array.mem_of_getElem? found), same⟩

theorem countP_ends (test : Ends VertexId → Bool) :
    g.ends.countP test = g.edgeIds.countP fun e => (g.edge? e).any fun r => test r.ends := by
  rw [ends_eq_filterMap, List.countP_filterMap]
  refine List.countP_congr fun e _ => ?_
  unfold ends?
  cases g.edge? e <;> simp

theorem mem_incident_iff_ends (consistent : g.Consistent) {e : EdgeId} :
    e ∈ g.incident v ↔ ∃ x, g.ends? e = some x ∧ x.Touches v := by
  rw [mem_incident_iff consistent]
  simp [ends?]

theorem mem_edgesBetween_iff_ends (consistent : g.Consistent) {e : EdgeId} :
    e ∈ g.edgesBetween u v ↔ ∃ x, g.ends? e = some x ∧ x.Joins u v := by
  rw [mem_edgesBetween_iff consistent]
  simp [ends?]

theorem length_incident (consistent : g.Consistent) (v : VertexId) :
    (g.incident v).length = g.ends.countP (·.Touches v) := by
  rw [consistent.incident, ← List.countP_eq_length_filter, countP_ends]

theorem length_edgesBetween (consistent : g.Consistent) (u v : VertexId) :
    (g.edgesBetween u v).length = g.ends.countP (·.Joins u v) := by
  rw [edgesBetween_eq_filter consistent, ← List.countP_eq_length_filter, countP_ends]

theorem mem_neighbors_iff (consistent : g.Consistent) :
    v ∈ g.neighbors u ↔ ∃ x ∈ g.ends, x.Joins u v := by
  unfold neighbors
  simp only [List.mem_filterMap, mem_incident_iff consistent, mem_ends_iff]
  constructor
  · rintro ⟨e, ⟨record, found, -⟩, across⟩
    rw [found] at across
    exact ⟨_, ⟨e, record, found, rfl⟩, Ends.opposite?_eq_some_iff.mp across⟩
  · rintro ⟨_, ⟨e, record, found, rfl⟩, joins⟩
    refine ⟨e, ⟨record, found, joins.touches.1⟩, ?_⟩
    rw [found]
    exact Ends.opposite?_eq_some_iff.mpr joins

/-- Without loops the degree counts edges. -/
theorem degree_eq_length (loopless : ∀ e, g.isLoop e = false) (v : VertexId) :
    g.degree v = (g.incident v).length := by
  have none : (g.incident v).countP g.isLoop = 0 :=
    List.countP_eq_zero.mpr fun e _ => by simp [loopless e]
  rw [degree, none]
  rfl

theorem degree_of_loopless (consistent : g.Consistent) (loopless : ∀ e, g.isLoop e = false)
    (v : VertexId) : g.degree v = g.ends.countP (·.Touches v) :=
  (degree_eq_length loopless v).trans (length_incident consistent v)

end GraphSplice.Graph
