import GraphSplice.Proofs.Application
import GraphSplice.Proofs.Lists
import GraphSplice.Proofs.Target

/-!
The edges that validation chooses for an application given by its vertices. Each choice depends on
those before it; all the same the choices have a simple description. The matched edges between two
vertices are bound, in order, to the first host edges between the vertices bound to them. Hence an
application can be completed exactly where there are enough host edges everywhere, and which edges
it is completed with does not depend on the order of the matched edges.
-/

namespace GraphSplice

variable {D : Domain}

namespace MatchedEdge

/-- How many of the edges join the same two vertices. -/
def alongside (edge : MatchedEdge D) (edges : List (MatchedEdge D)) : Nat :=
  edges.countP fun other => other.ends.Joins edge.ends.first edge.ends.second

theorem alongside_congr {edge other : MatchedEdge D}
    (parallel : other.ends.Joins edge.ends.first edge.ends.second) (edges : List (MatchedEdge D)) :
    other.alongside edges = edge.alongside edges := by
  simp only [alongside, Ends.joins_congr parallel]

end MatchedEdge

namespace Rule

variable {host : Host D} {r : Rule D} {vertices : List VertexId}

/-- Matched edges that are bound between the same vertices are parallel. -/
theorem parallel_of_boundEnds? (nodup : vertices.Nodup) {edge other : MatchedEdge D}
    {ends ends' : Ends VertexId} (bound : boundEnds? edge vertices = some ends)
    (bound' : boundEnds? other vertices = some ends')
    (joins : ends'.Joins ends.first ends.second) :
    other.ends.Joins edge.ends.first edge.ends.second := by
  have same {i j : Nat} {v : VertexId} (hi : vertices[i]? = some v) (hj : vertices[j]? = some v) :
      i = j :=
    (List.getElem?_inj (List.getElem?_eq_some_iff.mp hi).1 nodup).mp (hi.trans hj.symm)
  have there := boundEnds?_eq_some_iff.mp bound
  have there' := boundEnds?_eq_some_iff.mp bound'
  rcases joins with rfl | rfl
  · exact .inl (congrArg₂ Ends.mk (same (there' .first) (there .first))
      (same (there' .second) (there .second)))
  · exact .inr (congrArg₂ Ends.mk (same (there' .first) (there .second))
      (same (there' .second) (there .first)))

/-- Parallel matched edges are bound between the same vertices. -/
theorem joins_of_parallel {edge other : MatchedEdge D} {ends ends' : Ends VertexId}
    (bound : boundEnds? edge vertices = some ends) (bound' : boundEnds? other vertices = some ends')
    (parallel : other.ends.Joins edge.ends.first edge.ends.second) :
    ends'.Joins ends.first ends.second := by
  have there := boundEnds?_eq_some_iff.mp bound
  have there' := boundEnds?_eq_some_iff.mp bound'
  have same {i j : Nat} {v w : VertexId} (equal : i = j) (hi : vertices[i]? = some v)
      (hj : vertices[j]? = some w) : v = w := by
    subst equal
    exact Option.some.inj (hi.symm.trans hj)
  rcases parallel with parallel | parallel
  · exact .inl (congrArg₂ Ends.mk
      (same (congrArg Ends.first parallel) (there' .first) (there .first))
      (same (congrArg Ends.second parallel) (there' .second) (there .second)))
  · exact .inr (congrArg₂ Ends.mk
      (same (congrArg Ends.first parallel) (there' .first) (there .second))
      (same (congrArg Ends.second parallel) (there' .second) (there .first)))

theorem edgesBetween_congr (consistent : host.Consistent) {ends ends' : Ends VertexId}
    (joins : ends'.Joins ends.first ends.second) :
    host.edgesBetween ends'.first ends'.second = host.edgesBetween ends.first ends.second := by
  rcases joins with rfl | rfl
  · rfl
  · exact Graph.edgesBetween_comm consistent _ _

theorem nodup_edgesBetween (consistent : host.Consistent) (a b : VertexId) :
    (host.edgesBetween a b).Nodup := by
  refine (Graph.edgesBetween_ascending consistent a b).imp fun {e e'} less same => ?_
  rw [same] at less
  exact Nat.lt_irrefl _ less

/-! ## Ranks -/

/-- The matched edge in place `j` is bound to the host edge of its rank among those between its
vertices. -/
def BindsRanked (r : Rule D) (host : Host D) (vertices : List VertexId) (edges : List EdgeId)
    (j : Nat) : Prop :=
  ∀ edge, r.edges[j]? = some edge → ∃ e, edges[j]? = some e ∧
    ∃ ends, boundEnds? edge vertices = some ends ∧
      (host.edgesBetween ends.first ends.second)[edge.alongside (r.edges.take j)]? = some e

/-- Of the host edges between two vertices, the first ones are taken when a matched edge is bound
between them. -/
theorem mem_take_of_ranked (consistent : host.Consistent) (nodup : vertices.Nodup)
    {edges : List EdgeId} (length : edges.length = r.edges.length) {j : Nat}
    (ranked : ∀ m < j, r.BindsRanked host vertices edges m) {edge : MatchedEdge D}
    {ends : Ends VertexId} (bound : boundEnds? edge vertices = some ends) {i : Nat} {e : EdgeId}
    (listed : (host.edgesBetween ends.first ends.second)[i]? = some e) :
    e ∈ edges.take j ↔ i < edge.alongside (r.edges.take j) := by
  rw [mem_take_iff]
  constructor
  · rintro ⟨m, before, taken⟩
    have inside : m < r.edges.length := length ▸ (List.getElem?_eq_some_iff.mp taken).1
    have found := List.getElem?_eq_getElem inside
    obtain ⟨_, taken', ends', bound', listed'⟩ := ranked m before _ found
    cases taken.symm.trans taken'
    obtain ⟨record, there, joins⟩ := Graph.mem_edgesBetween (List.mem_of_getElem? listed)
    obtain ⟨record', there', joins'⟩ := Graph.mem_edgesBetween (List.mem_of_getElem? listed')
    cases there.symm.trans there'
    have across : ends'.Joins ends.first ends.second := joins'.symm.trans joins
    have parallel := parallel_of_boundEnds? nodup bound bound' across
    rw [edgesBetween_congr consistent across] at listed'
    have rank := (List.getElem?_inj (List.getElem?_eq_some_iff.mp listed).1
      (nodup_edgesBetween consistent _ _)).mp (listed.trans listed'.symm)
    rw [rank, MatchedEdge.alongside_congr parallel]
    exact countP_take_lt _ before found (decide_eq_true parallel)
  · intro below
    obtain ⟨m, other, found, parallel, rank⟩ := exists_countP_take below
    rw [List.getElem?_take] at found
    split at found
    · next before =>
      obtain ⟨e', taken, ends', bound', listed'⟩ := ranked m before other found
      have across := joins_of_parallel bound bound' (of_decide_eq_true parallel)
      rw [edgesBetween_congr consistent across,
        MatchedEdge.alongside_congr (of_decide_eq_true parallel)] at listed'
      rw [List.take_take, Nat.min_eq_left (Nat.le_of_lt before)] at rank
      rw [MatchedEdge.alongside, rank, listed] at listed'
      cases listed'
      exact ⟨m, before, taken⟩
    · cases found

theorem free?_of_ranked (consistent : host.Consistent) (nodup : vertices.Nodup)
    {edges : List EdgeId} (length : edges.length = r.edges.length) {j : Nat}
    (ranked : ∀ m < j, r.BindsRanked host vertices edges m) {edge : MatchedEdge D}
    {ends : Ends VertexId} (bound : boundEnds? edge vertices = some ends) :
    free? host vertices (edges.take j) edge =
      (host.edgesBetween ends.first ends.second)[edge.alongside (r.edges.take j)]? := by
  rw [free?_eq bound]
  refine find?_eq_getElem? fun i e listed => ?_
  rw [decide_eq_true_eq, mem_take_of_ranked consistent nodup length ranked bound listed, Nat.not_lt]

/-- Every matched edge is bound to the host edge of its rank. -/
theorem chooseEdges_eq_ok_iff_ranked (consistent : host.Consistent) (nodup : vertices.Nodup)
    {edges : List EdgeId} : r.chooseEdges host vertices = .ok edges ↔
      edges.length = r.edges.length ∧ ∀ j, r.BindsRanked host vertices edges j := by
  rw [chooseEdges_eq_ok_iff, and_congr_right_iff]
  intro length
  constructor
  · intro each j
    induction j using Nat.strongRecOn with
    | ind j ranked =>
      intro edge found
      obtain ⟨e, taken, first⟩ := each j edge found
      obtain ⟨ends, bound, -⟩ := Option.bind_eq_some_iff.mp first
      rw [free?_of_ranked consistent nodup length ranked bound] at first
      exact ⟨e, taken, ends, bound, first⟩
  · intro ranked j edge found
    obtain ⟨e, taken, ends, bound, listed⟩ := ranked j edge found
    rw [← free?_of_ranked consistent nodup length (fun m _ => ranked m) bound] at listed
    exact ⟨e, taken, listed⟩

/-! ## All choices together -/

/-- There is a host edge for every matched edge. -/
def Affords (r : Rule D) (host : Host D) (vertices : List VertexId) : Prop :=
  ∀ edge ∈ r.edges, ∃ ends, boundEnds? edge vertices = some ends ∧
    edge.alongside r.edges ≤ (host.edgesBetween ends.first ends.second).length

theorem alongside_take_lt {edge : MatchedEdge D} {j : Nat} (found : r.edges[j]? = some edge) :
    edge.alongside (r.edges.take j) < edge.alongside r.edges := by
  have inside := (List.getElem?_eq_some_iff.mp found).1
  have less := countP_take_lt
    (fun other : MatchedEdge D => other.ends.Joins edge.ends.first edge.ends.second) inside found
    (decide_eq_true edge.ends.joins_self)
  rwa [List.take_length] at less

theorem exists_chooseEdges_iff (consistent : host.Consistent) (nodup : vertices.Nodup) :
    (∃ edges, r.chooseEdges host vertices = .ok edges) ↔ r.Affords host vertices := by
  simp only [chooseEdges_eq_ok_iff_ranked consistent nodup]
  constructor
  · rintro ⟨edges, -, ranked⟩ edge hedge
    obtain ⟨j, found⟩ := List.getElem?_of_mem hedge
    obtain ⟨-, -, ends, bound, -⟩ := ranked j edge found
    refine ⟨ends, bound, Nat.le_of_not_lt fun few => ?_⟩
    -- One of the parallel edges has the rank for which there is no host edge.
    obtain ⟨m, other, found', parallel, rank⟩ := exists_countP_take few
    obtain ⟨e, -, ends', bound', listed⟩ := ranked m other found'
    rw [MatchedEdge.alongside_congr (of_decide_eq_true parallel), MatchedEdge.alongside, rank,
      edgesBetween_congr consistent (joins_of_parallel bound bound' (of_decide_eq_true parallel)),
      List.getElem?_eq_none (Nat.le_refl _)] at listed
    cases listed
  · intro affords
    have each : ∀ x ∈ r.edges.zipIdx, ∃ e, ∃ ends, boundEnds? x.1 vertices = some ends ∧
        (host.edgesBetween ends.first ends.second)[x.1.alongside (r.edges.take x.2)]? = some e := by
      rintro ⟨edge, j⟩ hx
      have found := List.mem_zipIdx_iff_getElem?.mp hx
      obtain ⟨ends, bound, enough⟩ := affords edge (List.mem_of_getElem? found)
      have inside := Nat.lt_of_lt_of_le (alongside_take_lt found) enough
      exact ⟨_, ends, bound, List.getElem?_eq_getElem inside⟩
    obtain ⟨edges, related⟩ := exists_forall₂ each
    refine ⟨edges, by rw [← related.length_eq, List.length_zipIdx], fun j edge found => ?_⟩
    have numbered : r.edges.zipIdx[j]? = some (edge, j) := by
      rw [List.getElem?_zipIdx, found]
      simp
    obtain ⟨e, taken, bound⟩ := (forall₂_getElem? related j).1 _ numbered
    exact ⟨e, taken, bound⟩

/-- The chosen edges are, between any two bound vertices, as many of the first host edges as there
are matched edges between them. -/
theorem mem_chooseEdges_iff (consistent : host.Consistent) (nodup : vertices.Nodup)
    {edges : List EdgeId} (chosen : r.chooseEdges host vertices = .ok edges) {e : EdgeId} :
    e ∈ edges ↔ ∃ edge ∈ r.edges, ∃ ends, boundEnds? edge vertices = some ends ∧
      e ∈ (host.edgesBetween ends.first ends.second).take (edge.alongside r.edges) := by
  obtain ⟨length, ranked⟩ := (chooseEdges_eq_ok_iff_ranked consistent nodup).mp chosen
  constructor
  · intro he
    obtain ⟨j, taken⟩ := List.getElem?_of_mem he
    have inside : j < r.edges.length := length ▸ (List.getElem?_eq_some_iff.mp taken).1
    have found := List.getElem?_eq_getElem inside
    obtain ⟨_, taken', ends, bound, listed⟩ := ranked j _ found
    cases taken.symm.trans taken'
    exact ⟨_, List.mem_of_getElem? found, ends, bound,
      mem_take_iff.mpr ⟨_, alongside_take_lt found, listed⟩⟩
  · rintro ⟨edge, hedge, ends, bound, he⟩
    obtain ⟨i, below, listed⟩ := mem_take_iff.mp he
    obtain ⟨m, other, found, parallel, rank⟩ := exists_countP_take below
    obtain ⟨e', taken, ends', bound', listed'⟩ := ranked m other found
    rw [MatchedEdge.alongside_congr (of_decide_eq_true parallel), MatchedEdge.alongside, rank,
      edgesBetween_congr consistent (joins_of_parallel bound bound' (of_decide_eq_true parallel)),
      listed] at listed'
    cases listed'
    exact List.mem_of_getElem? taken

theorem nodup_chooseEdges {edges : List EdgeId} (chosen : r.chooseEdges host vertices = .ok edges) :
    edges.Nodup := by
  obtain ⟨length, each⟩ := chooseEdges_eq_ok_iff.mp chosen
  refine nodup_iff_not_mem_take.mpr fun j e taken => ?_
  have inside : j < r.edges.length := length ▸ (List.getElem?_eq_some_iff.mp taken).1
  obtain ⟨_, taken', first⟩ := each j _ (List.getElem?_eq_getElem inside)
  cases taken.symm.trans taken'
  obtain ⟨ends, -, found⟩ := Option.bind_eq_some_iff.mp first
  simpa using List.find?_some found

/-! ## Validation -/

/-- Without edges of its own an occurrence is completed by choice, if there is anything to choose. -/
theorem bindEdges_ofVertices :
    r.bindEdges host (.ofVertices vertices) = r.chooseEdges host vertices := by
  unfold bindEdges
  split
  · rfl
  · next complete =>
    have none : r.edges = [] := by
      simpa [Occurrence.ofVertices] using complete
    simp [Occurrence.ofVertices, checkEdges, chooseEdges, none]

theorem resolve_ofVertices_eq_ok_iff {resolved : Resolved D} :
    r.resolve host (.ofVertices vertices) = .ok resolved ↔
      vertices.length = r.vertices.length ∧ (∀ v ∈ vertices, host.Contains v) ∧
        ∃ edges, r.chooseEdges host vertices = .ok edges ∧ resolved = ⟨r, ⟨vertices, edges⟩⟩ := by
  rw [resolve_eq_ok_iff, bindEdges_ofVertices]
  rfl

/-- An application given by its vertices is valid exactly where they exist and there are host edges
between them for all matched edges. -/
theorem isOk_resolve_ofVertices_iff (consistent : host.Consistent) (nodup : vertices.Nodup) :
    (r.resolve host (.ofVertices vertices)).isOk = true ↔
      vertices.length = r.vertices.length ∧ (∀ v ∈ vertices, host.Contains v) ∧
        r.Affords host vertices := by
  rw [← exists_chooseEdges_iff consistent nodup]
  constructor
  · intro valid
    obtain ⟨resolved, resolves⟩ := exists_of_isOk valid
    obtain ⟨arity, contained, edges, chosen, -⟩ := resolve_ofVertices_eq_ok_iff.mp resolves
    exact ⟨arity, contained, edges, chosen⟩
  · rintro ⟨arity, contained, edges, chosen⟩
    rw [resolve_ofVertices_eq_ok_iff.mpr ⟨arity, contained, edges, chosen, rfl⟩]
    rfl

end Rule

end GraphSplice
