import GraphSplice.Proofs.Graph.Consistency
import Mathlib.Algebra.BigOperators.Group.Finset.Basic
import Mathlib.Algebra.GroupWithZero.Nat
import Mathlib.Algebra.Order.BigOperators.Group.Finset

/-!
What the queries of a consistent graph answer, told from its edge table: the edges at a vertex,
its neighbours with their numbers, and its degree. Each edge is at two places in all, so the degrees
add up to twice the number of edges.
-/

namespace GraphSplice

universe u v

/-- Elements of a list without repetitions occur, counted one by one, as often as there are
occurrences. -/
theorem sum_count_eq_length {α : Type} [DecidableEq α] {xs : List α} (nodup : xs.Nodup)
    {occurrences : List α} (inside : ∀ x ∈ occurrences, x ∈ xs) :
    (xs.map fun x => occurrences.count x).sum = occurrences.length := by
  rw [← List.sum_toFinset _ nodup]
  have counted : ∑ x ∈ xs.toFinset, Multiset.count x ↑occurrences = occurrences.length :=
    Multiset.sum_count_eq_card fun x hx => List.mem_toFinset.mpr (inside x hx)
  simpa using counted

namespace Graph

variable {N : Type u} {E : Type v} {g : Graph N E}

theorem incident_ascending (consistent : g.Consistent) (v : VertexId) :
    (g.incident v).Pairwise (· < ·) := by
  rw [consistent.incident]
  exact g.edgeIds_ascending.filter _

/-- Both ends of an edge, in the order of the record. -/
def endsOf (g : Graph N E) (e : EdgeId) : List VertexId :=
  ((g.edge? e).map (·.ends.toList)).getD []

theorem endsOf_of_found {e : EdgeId} {record : Edge E} (found : g.edge? e = some record) :
    g.endsOf e = [record.ends.first, record.ends.second] := by
  rw [endsOf, found]
  rfl

/-- A loop is across from its vertex once, as any other edge is from each of its ends. -/
theorem count_neighbors (consistent : g.Consistent) (v u : VertexId) :
    (g.neighbors v).count u =
      g.edgeIds.countP fun e => (g.edge? e).any fun record => record.ends.Joins v u := by
  unfold neighbors
  rw [consistent.incident, List.count_filterMap, List.countP_filter]
  apply List.countP_congr
  intro e _
  cases g.edge? e with
  | none => simp
  | some record =>
    simp only [Option.bind_some, beq_iff_eq, Bool.and_eq_true, Option.any_some, decide_eq_true_eq,
      Ends.opposite?_eq_some_iff]
    exact and_iff_left_of_imp fun joins => joins.touches.1

/-- The degree counts the ends of edges at the vertex. -/
theorem degree_eq_count (consistent : g.Consistent) (v : VertexId) :
    g.degree v = (g.edgeIds.flatMap g.endsOf).count v := by
  unfold degree
  rw [consistent.incident]
  -- By induction on the edges: each is listed if it ends there, and once more if it is a loop.
  induction g.edgeIds with
  | nil => rfl
  | cons e es ih =>
    rw [List.flatMap_cons, List.count_append, ← ih]
    cases found : g.edge? e with
    | none => simp [found, endsOf]
    | some record =>
      rw [endsOf_of_found found]
      obtain ⟨index, ⟨a, b⟩, payload⟩ := record
      by_cases first : a = v
      · by_cases second : b = v
        · simp [found, Ends.Touches, isLoop, first, second]
          omega
        · have apart : v ≠ b := Ne.symm second
          simp [found, Ends.Touches, isLoop, first, second, apart]
          omega
      · by_cases second : b = v
        · simp [found, Ends.Touches, isLoop, first, second]
          omega
        · simp [found, Ends.Touches, first, second]

theorem length_flatMap_endsOf (g : Graph N E) :
    (g.edgeIds.flatMap g.endsOf).length = 2 * g.size := by
  have two : ∀ e ∈ g.edgeIds, (g.endsOf e).length = 2 := by
    intro e he
    obtain ⟨record, found⟩ := edge?_isSome_iff.mpr (mem_edgeIds.mp he)
    rw [endsOf_of_found found]
    rfl
  have edges : g.edgeIds.length = g.size := by simp [edgeIds]
  rw [List.length_flatMap, List.map_congr_left two, List.map_const', List.sum_replicate_nat,
    edges, Nat.mul_comm]

/-- The degrees add up to twice the number of edges. -/
theorem sum_degree (consistent : g.Consistent) :
    (g.vertexIds.map g.degree).sum = 2 * g.size := by
  have inside : ∀ v ∈ g.edgeIds.flatMap g.endsOf, v ∈ g.vertexIds := by
    intro v hv
    obtain ⟨e, he, hv⟩ := List.mem_flatMap.mp hv
    obtain ⟨record, found⟩ := edge?_isSome_iff.mpr (mem_edgeIds.mp he)
    rw [endsOf_of_found found] at hv
    rw [mem_vertexIds]
    obtain ⟨first, second⟩ := consistent.ends e record found
    rcases List.mem_cons.mp hv with rfl | hv
    · exact first
    · rwa [List.mem_singleton.mp hv]
  rw [List.map_congr_left fun v _ => degree_eq_count consistent v,
    sum_count_eq_length g.nodup_vertexIds inside, length_flatMap_endsOf]

end Graph

end GraphSplice
