import GraphSplice.Pattern
import GraphSplice.Proofs.Ascending
import GraphSplice.Proofs.Ends
import GraphSplice.Proofs.Graph.Consistency
import GraphSplice.Proofs.Lists
import Mathlib.Order.Nat

/-!
What a search may rely on in a target: the neighbours of a vertex are those that it has an edge to,
and every edge lies between one pair of vertices. Host graphs and plain patterns are such targets.
-/

namespace GraphSplice

/-- Neighbourhoods agree with the edges, and each edge is between one pair of vertices. -/
structure Target.Regular (t : Target) : Prop where
  neighbors : ∀ u v, v ∈ t.neighbors u ↔ t.edgesBetween u v ≠ []
  inside : ∀ u v, v ∈ t.neighbors u → v < t.order
  ascending : ∀ u v, (t.edgesBetween u v).Pairwise (· < ·)
  comm : ∀ u v, t.edgesBetween u v = t.edgesBetween v u
  apart : ∀ a b c d e, e ∈ t.edgesBetween a b → e ∈ t.edgesBetween c d →
    (c = a ∧ d = b) ∨ (c = b ∧ d = a)

namespace Target.Regular

variable {t : Target}

theorem mem_distinctNeighbors_iff (regular : t.Regular) {u v : Nat} :
    v ∈ t.distinctNeighbors u ↔ v ≠ u ∧ t.edgesBetween u v ≠ [] := by
  unfold distinctNeighbors
  rw [Ascending.mem_ofList, List.mem_filter, regular.neighbors, decide_eq_true_eq]
  exact and_comm

theorem lt_of_mem_distinctNeighbors (regular : t.Regular) {u v : Nat}
    (h : v ∈ t.distinctNeighbors u) : v < t.order :=
  regular.inside u v ((regular.neighbors u v).mpr (regular.mem_distinctNeighbors_iff.mp h).2)

end Target.Regular

theorem Target.nodup_distinctNeighbors (t : Target) (v : Nat) : (t.distinctNeighbors v).Nodup :=
  (Ascending.ofList_pairwise _).imp fun h => Nat.ne_of_lt h

/-! ## Patterns -/

namespace Pattern

/-- Every edge joins two distinct vertices of the pattern. -/
def Plain (p : Pattern) : Prop :=
  ∀ e ∈ p.edges, e.first ≠ e.second ∧ ∀ side, e.get side < p.order

variable {p : Pattern}

theorem mem_numbered_iff {e : Ends Nat} {j : Nat} : (e, j) ∈ p.numbered ↔ p.edges[j]? = some e :=
  List.mk_mem_zipIdx_iff_getElem?

theorem mem_edgesBetween_iff {a b j : Nat} :
    j ∈ p.edgesBetween a b ↔ ∃ e, p.edges[j]? = some e ∧ e.Joins a b := by
  simp only [edgesBetween, List.mem_map, List.mem_filter, decide_eq_true_eq, Prod.exists,
    mem_numbered_iff]
  constructor
  · rintro ⟨e, i, ⟨found, joins⟩, rfl⟩
    exact ⟨e, found, joins⟩
  · rintro ⟨e, found, joins⟩
    exact ⟨e, j, ⟨found, joins⟩, rfl⟩

theorem edgesBetween_comm (p : Pattern) (a b : Nat) : p.edgesBetween a b = p.edgesBetween b a := by
  unfold edgesBetween
  simp only [Ends.joins_comm]

theorem numbered_ascending (p : Pattern) : (p.numbered.map (·.2)).Pairwise (· < ·) :=
  zipIdx_ascending p.edges 0

theorem edgesBetween_ascending (p : Pattern) (a b : Nat) :
    (p.edgesBetween a b).Pairwise (· < ·) :=
  p.numbered_ascending.sublist (List.filter_sublist.map _)

theorem nodup_edgesBetween (p : Pattern) (a b : Nat) : (p.edgesBetween a b).Nodup :=
  (p.edgesBetween_ascending a b).imp Nat.ne_of_lt

theorem eq_of_mem_edgesBetween {a b c d j : Nat} (h : j ∈ p.edgesBetween a b)
    (h' : j ∈ p.edgesBetween c d) : (c = a ∧ d = b) ∨ (c = b ∧ d = a) := by
  obtain ⟨e, found, joins⟩ := mem_edgesBetween_iff.mp h
  obtain ⟨e', found', joins'⟩ := mem_edgesBetween_iff.mp h'
  rw [found] at found'
  cases found'
  exact joins.unique joins'

theorem mem_neighbors_iff {u v : Nat} : v ∈ p.neighbors u ↔ p.edgesBetween u v ≠ [] := by
  have joined :
      v ∈ p.neighbors u ↔ ∃ (j : Nat) (e : Ends Nat), p.edges[j]? = some e ∧ e.Joins u v := by
    simp only [neighbors, incident, List.mem_filterMap, List.mem_filter, decide_eq_true_eq,
      Prod.exists, mem_numbered_iff, Ends.opposite?_eq_some_iff]
    constructor
    · rintro ⟨e, j, ⟨found, -⟩, joins⟩
      exact ⟨j, e, found, joins⟩
    · rintro ⟨j, e, found, joins⟩
      exact ⟨e, j, ⟨found, joins.touches.1⟩, joins⟩
  rw [joined]
  constructor
  · rintro ⟨j, between⟩
    exact List.ne_nil_of_mem (mem_edgesBetween_iff.mpr between)
  · intro nonempty
    obtain ⟨j, between⟩ := List.exists_mem_of_ne_nil _ nonempty
    exact ⟨j, mem_edgesBetween_iff.mp between⟩

namespace Plain

theorem distinct (plain : p.Plain) {a b j : Nat} (h : j ∈ p.edgesBetween a b) :
    a ≠ b ∧ a < p.order ∧ b < p.order := by
  obtain ⟨e, found, joins⟩ := mem_edgesBetween_iff.mp h
  obtain ⟨apart, inside⟩ := plain e (List.mem_of_getElem? found)
  rcases joins with rfl | rfl
  · exact ⟨apart, inside .first, inside .second⟩
  · exact ⟨apart.symm, inside .second, inside .first⟩

theorem exists_pair (plain : p.Plain) {j : Nat} (inside : j < p.edges.length) :
    ∃ a b, a ≠ b ∧ a < p.order ∧ b < p.order ∧ j ∈ p.edgesBetween a b := by
  have between : j ∈ p.edgesBetween p.edges[j].first p.edges[j].second :=
    mem_edgesBetween_iff.mpr ⟨_, List.getElem?_eq_getElem inside, Ends.joins_self _⟩
  have distinct := plain.distinct between
  exact ⟨_, _, distinct.1, distinct.2.1, distinct.2.2, between⟩

theorem regular (plain : p.Plain) : p.asTarget.Regular where
  neighbors _ _ := mem_neighbors_iff
  inside u v h := by
    obtain ⟨j, between⟩ := List.exists_mem_of_ne_nil _ (mem_neighbors_iff.mp h)
    exact (plain.distinct between).2.2
  ascending := p.edgesBetween_ascending
  comm := p.edgesBetween_comm
  apart _ _ _ _ _ := eq_of_mem_edgesBetween

end Plain

end Pattern

/-! ## Host graphs -/

namespace Graph

variable {N E : Type} {g : Graph N E}

theorem mem_asTarget_edgesBetween_iff (consistent : g.Consistent) {a b e : Nat} :
    e ∈ g.asTarget.edgesBetween a b ↔
      ∃ record, g.edge? ⟨e⟩ = some record ∧ record.ends.Joins ⟨a⟩ ⟨b⟩ := by
  rw [← mem_edgesBetween_iff consistent]
  change e ∈ (g.edgesBetween ⟨a⟩ ⟨b⟩).map Handle.slot ↔ _
  rw [List.mem_map]
  constructor
  · rintro ⟨⟨slot⟩, member, rfl⟩
    exact member
  · exact fun member => ⟨_, member, rfl⟩

theorem regular_asTarget (consistent : g.Consistent) : g.asTarget.Regular where
  neighbors u v := by
    have joined : v ∈ g.asTarget.neighbors u ↔ ∃ e, e ∈ g.asTarget.edgesBetween u v := by
      simp only [mem_asTarget_edgesBetween_iff consistent]
      change v ∈ (g.neighbors ⟨u⟩).map Handle.slot ↔ _
      simp only [neighbors, List.mem_map, List.mem_filterMap, mem_incident_iff consistent]
      constructor
      · rintro ⟨⟨slot⟩, ⟨e, ⟨record, found, -⟩, across⟩, rfl⟩
        rw [found] at across
        exact ⟨e.slot, record, found, Ends.opposite?_eq_some_iff.mp across⟩
      · rintro ⟨e, record, found, joins⟩
        refine ⟨⟨v⟩, ⟨⟨e⟩, ⟨record, found, joins.touches.1⟩, ?_⟩, rfl⟩
        rw [found]
        exact Ends.opposite?_eq_some_iff.mpr joins
    rw [joined]
    exact ⟨fun h => List.ne_nil_of_mem h.choose_spec, List.exists_mem_of_ne_nil _⟩
  inside u v h := by
    change v ∈ (g.neighbors ⟨u⟩).map Handle.slot at h
    obtain ⟨w, member, rfl⟩ := List.mem_map.mp h
    obtain ⟨e, -, across⟩ := List.mem_filterMap.mp member
    obtain ⟨record, found, opposite⟩ := Option.bind_eq_some_iff.mp across
    have contained := consistent.ends e record found
    rcases (Ends.opposite?_eq_some_iff.mp opposite).touches.2 with same | same
    · exact same ▸ contained.1
    · exact same ▸ contained.2
  ascending a b := by
    change ((g.edgesBetween ⟨a⟩ ⟨b⟩).map Handle.slot).Pairwise (· < ·)
    rw [List.pairwise_map]
    exact edgesBetween_ascending consistent _ _
  comm a b := congrArg (List.map Handle.slot) (edgesBetween_comm consistent ⟨a⟩ ⟨b⟩)
  apart a b c d e h h' := by
    obtain ⟨record, found, joins⟩ := (mem_asTarget_edgesBetween_iff consistent).mp h
    obtain ⟨record', found', joins'⟩ := (mem_asTarget_edgesBetween_iff consistent).mp h'
    rw [found] at found'
    cases found'
    simpa only [Handle.mk.injEq] using joins.unique joins'

end Graph

end GraphSplice
