import GraphSplice.Proofs.Lists
import GraphSplice.Proofs.Search.Assignment
import GraphSplice.Proofs.Target

/-!
Partial placements. What a search has placed fits: the vertices are distinct, the placed part is
induced, and between any two placed vertices the edges are assigned. Placing one more vertex that
fits keeps it so, and what is placed in the end is an embedding.
-/

namespace GraphSplice.Search

universe u

/-! ## Tables -/

namespace Table

variable {t : Table} {key value : Nat}

/-- The keys ascend, so none is there twice. -/
def Sorted (t : Table) : Prop := (t.map (·.1)).Pairwise (· < ·)

theorem mem_insert {x : Nat × Nat} : x ∈ t.insert key value ↔ x = (key, value) ∨ x ∈ t := by
  induction t with
  | nil => simp [insert]
  | cons y rest ih =>
    unfold insert
    split
    · exact List.mem_cons
    · rw [List.mem_cons, ih, List.mem_cons]
      exact or_left_comm

theorem Sorted.insert (sorted : t.Sorted) (fresh : ∀ v, (key, v) ∉ t) :
    (t.insert key value).Sorted := by
  induction t with
  | nil => exact List.pairwise_singleton _ _
  | cons y rest ih =>
    obtain ⟨below, sorted⟩ := List.pairwise_cons.mp sorted
    unfold Table.insert
    split
    · next less =>
      refine List.pairwise_cons.mpr ⟨?_, List.pairwise_cons.mpr ⟨below, sorted⟩⟩
      intro k hk
      rcases List.mem_cons.mp hk with rfl | later
      · exact less
      · exact Nat.lt_trans less (below k later)
    · next above =>
      refine List.pairwise_cons.mpr ⟨?_, ih sorted fun v inside =>
        fresh v (List.mem_cons_of_mem y inside)⟩
      intro k hk
      obtain ⟨x, hx, rfl⟩ := List.mem_map.mp hk
      rcases mem_insert.mp hx with rfl | later
      · have different : y.1 ≠ key := fun same =>
          fresh y.2 (List.mem_cons.mpr (.inl (Prod.ext same.symm rfl)))
        change y.1 < key
        omega
      · exact below x.1 (List.mem_map.mpr ⟨x, later, rfl⟩)

theorem Sorted.nodup (sorted : t.Sorted) : (t.map (·.1)).Nodup :=
  sorted.imp fun h => Nat.ne_of_lt h

theorem Sorted.unique (sorted : t.Sorted) {v w : Nat} (hv : (key, v) ∈ t) (hw : (key, w) ∈ t) :
    v = w :=
  congrArg Prod.snd (List.inj_on_of_nodup_map sorted.nodup hv hw rfl)

theorem Sorted.lookup_eq_some_iff (sorted : t.Sorted) {v : Nat} :
    t.lookup key = some v ↔ (key, v) ∈ t :=
  lookup_eq_some_iff_mem sorted.nodup

/-- Values of a sorted table that has all keys from 0 on are found at their keys. -/
theorem Sorted.values_getElem?_iff (sorted : t.Sorted) {n : Nat}
    (keys : ∀ k, k < n ↔ ∃ v, (k, v) ∈ t) {v : Nat} :
    t.values[key]? = some v ↔ (key, v) ∈ t := by
  have range : t.map (·.1) = List.range n := by
    apply eq_of_ascending id sorted List.pairwise_lt_range
    intro k
    rw [List.mem_range, keys, List.mem_map]
    constructor
    · rintro ⟨x, hx, rfl⟩
      exact ⟨x.2, hx⟩
    · rintro ⟨v, hv⟩
      exact ⟨_, hv, rfl⟩
  have place : ∀ x, t[key]? = some x → x.1 = key := by
    intro x found
    have there : (t.map (·.1))[key]? = some x.1 := by rw [List.getElem?_map, found]; rfl
    rw [range] at there
    obtain ⟨inside, same⟩ := List.getElem?_eq_some_iff.mp there
    rw [← same, List.getElem_range]
  unfold values
  rw [List.getElem?_map, Option.map_eq_some_iff]
  constructor
  · rintro ⟨x, found, rfl⟩
    rw [← place x found]
    exact List.mem_of_getElem? found
  · intro inside
    have less : key < n := (keys key).mpr ⟨v, inside⟩
    have length : t.length = n := by rw [← List.length_map (·.1), range, List.length_range]
    have found : t[key]? = some t[key] := List.getElem?_eq_getElem (by omega)
    have same := place _ found
    have there : (key, t[key].2) ∈ t := by
      have member := List.getElem_mem (l := t) (n := key) (by omega)
      rwa [show t[key] = (key, t[key].2) from Prod.ext same rfl] at member
    exact ⟨_, found, sorted.unique there inside⟩

theorem Sorted.length_values (sorted : t.Sorted) {n : Nat}
    (keys : ∀ k, k < n ↔ ∃ v, (k, v) ∈ t) : t.values.length = n := by
  have all : ∀ k, k < t.values.length ↔ k < n := by
    intro k
    rw [keys]
    constructor
    · intro inside
      exact ⟨_, (sorted.values_getElem?_iff keys).mp (List.getElem?_eq_getElem inside)⟩
    · rintro ⟨v, there⟩
      exact (List.getElem?_eq_some_iff.mp ((sorted.values_getElem?_iff keys).mpr there)).1
  have first := all t.values.length
  have second := all n
  omega

/-- Entries inserted in turn. -/
theorem mem_foldl_insert {x : Nat × Nat} (entries : Table) :
    ∀ t : Table, x ∈ entries.foldl (fun acc e => acc.insert e.1 e.2) t ↔ x ∈ entries ∨ x ∈ t := by
  induction entries with
  | nil => simp
  | cons y rest ih =>
    intro t
    rw [List.foldl_cons, ih, mem_insert, List.mem_cons]
    exact ⟨fun h => by tauto, fun h => by tauto⟩

theorem Sorted.foldl_insert (entries : Table) : ∀ t : Table, t.Sorted →
    (entries.map (·.1)).Nodup → (∀ x ∈ entries, ∀ v, (x.1, v) ∉ t) →
    (entries.foldl (fun acc e => acc.insert e.1 e.2) t : Table).Sorted := by
  induction entries with
  | nil => exact fun t sorted _ _ => sorted
  | cons y rest ih =>
    intro t sorted nodup fresh
    obtain ⟨first, nodup⟩ := List.nodup_cons.mp nodup
    apply ih _ (sorted.insert (fresh y List.mem_cons_self)) nodup
    intro x hx v inside
    rcases mem_insert.mp inside with same | before
    · exact first (List.mem_map.mpr ⟨x, hx, (Prod.ext_iff.mp same).1⟩)
    · exact fresh x (List.mem_cons_of_mem y hx) v before

end Table

/-! ## Terms -/

/-- On which terms vertices and edges are matched, and whether a guide that keeps to the terms is
exact, so that it turns down nothing that would do. -/
structure Terms where
  exact : Prop
  vertex : Nat → Nat → Prop
  edge : Nat → Nat → Prop

/-- The pattern edges of one bundle are assigned, with an exact guide in the first possible way. -/
def Terms.Assigned (T : Terms) (targets edges chosen : List Nat) : Prop :=
  Assigns T.edge targets [] edges chosen ∧
    (T.exact → AssignsFirst (· < ·) T.edge targets [] edges chosen)

theorem Terms.Assigned.unique {T : Terms} (isExact : T.exact) {targets edges chosen other : List Nat}
    (h : T.Assigned targets edges chosen) (h' : T.Assigned targets edges other) :
    chosen = other := by
  rcases (h.2 isExact).first other h'.1 with same | less
  · exact same.symm
  · rcases (h'.2 isExact).first chosen h.1 with same | greater
    · exact same
    · exact absurd greater (asymm less)

variable {T : Terms} {p : Pattern} {target : Target} {m : Placement}

/-- What has been placed satisfies the terms and is induced, and its edges are assigned. -/
structure Fitting (T : Terms) (p : Pattern) (target : Target) (m : Placement) : Prop where
  sorted : m.vertices.Sorted
  distinct : ∀ i j t, (i, t) ∈ m.vertices → (j, t) ∈ m.vertices → i = j
  inside : ∀ i t, (i, t) ∈ m.vertices → i < p.order ∧ t < target.order
  vertex : ∀ i t, (i, t) ∈ m.vertices → T.vertex i t
  induced : ∀ i a j b, (i, a) ∈ m.vertices → (j, b) ∈ m.vertices → i ≠ j →
    p.edgesBetween i j = [] → target.edgesBetween a b = []
  edgesSorted : m.edges.Sorted
  between : ∀ x ∈ m.edges, ∃ i a j b, (i, a) ∈ m.vertices ∧ (j, b) ∈ m.vertices ∧
    x.1 ∈ p.edgesBetween i j
  assigned : ∀ i a j b, (i, a) ∈ m.vertices → (j, b) ∈ m.vertices → i ≠ j →
    ∃ chosen, T.Assigned (target.edgesBetween a b) (p.edgesBetween i j) chosen ∧
      ∀ x ∈ (p.edgesBetween i j).zip chosen, x ∈ m.edges

theorem Fitting.empty : Fitting T p target .empty where
  sorted := .nil
  distinct := nofun
  inside := nofun
  vertex := nofun
  induced := nofun
  edgesSorted := .nil
  between := nofun
  assigned := nofun

/-- The vertex fits on the target with these edges to what has been placed. -/
structure Fits (T : Terms) (p : Pattern) (target : Target) (m : Placement) (v t : Nat)
    (edges : Table) : Prop where
  vertex : T.vertex v t
  induced : ∀ j b, (j, b) ∈ m.vertices → p.edgesBetween v j = [] → target.edgesBetween t b = []
  distinct : (edges.map (·.1)).Nodup
  between : ∀ x ∈ edges, ∃ j b, (j, b) ∈ m.vertices ∧ x.1 ∈ p.edgesBetween v j
  assigned : ∀ j b, (j, b) ∈ m.vertices →
    ∃ chosen, T.Assigned (target.edgesBetween t b) (p.edgesBetween v j) chosen ∧
      ∀ x ∈ (p.edgesBetween v j).zip chosen, x ∈ edges

namespace Fitting

theorem mem_place_vertices {v t : Nat} {edges : Table} {x : Nat × Nat} :
    x ∈ (m.place v t edges).vertices ↔ x = (v, t) ∨ x ∈ m.vertices := Table.mem_insert

theorem mem_place_edges {v t : Nat} {edges : Table} {x : Nat × Nat} :
    x ∈ (m.place v t edges).edges ↔ x ∈ edges ∨ x ∈ m.edges := Table.mem_foldl_insert edges m.edges

/-- A vertex that fits may be placed. -/
theorem place (fitting : Fitting T p target m) (regular : target.Regular) {v t : Nat}
    {edges : Table} (fits : Fits T p target m v t edges) (fresh : ∀ a, (v, a) ∉ m.vertices)
    (free : ∀ i, (i, t) ∉ m.vertices) (inside : v < p.order) (inside' : t < target.order) :
    Fitting T p target (m.place v t edges) := by
  have placed : ∀ {i a}, (i, a) ∈ (m.place v t edges).vertices →
      (i = v ∧ a = t) ∨ (i, a) ∈ m.vertices := by
    intro i a h
    simpa using mem_place_vertices.mp h
  constructor
  case sorted => exact fitting.sorted.insert fresh
  case distinct =>
    intro i j s hi hj
    rcases placed hi with ⟨rfl, rfl⟩ | old <;> rcases placed hj with ⟨rfl, same⟩ | old'
    · rfl
    · exact absurd old' (free j)
    · exact absurd old (same ▸ free i)
    · exact fitting.distinct i j s old old'
  case inside =>
    intro i s hi
    rcases placed hi with ⟨rfl, rfl⟩ | old
    · exact ⟨inside, inside'⟩
    · exact fitting.inside i s old
  case vertex =>
    intro i s hi
    rcases placed hi with ⟨rfl, rfl⟩ | old
    · exact fits.vertex
    · exact fitting.vertex i s old
  case induced =>
    intro i a j b hi hj different none
    rcases placed hi with ⟨rfl, rfl⟩ | old <;> rcases placed hj with ⟨rfl, rfl⟩ | old'
    · exact absurd rfl different
    · exact fits.induced j b old' none
    · rw [regular.comm]
      exact fits.induced i a old (by rwa [p.edgesBetween_comm])
    · exact fitting.induced i a j b old old' different none
  case edgesSorted =>
    apply Table.Sorted.foldl_insert edges m.edges fitting.edgesSorted fits.distinct
    intro x hx e before
    obtain ⟨j, b, hj, between⟩ := fits.between x hx
    obtain ⟨i, a, k, c, hi, hk, between'⟩ := fitting.between _ before
    rcases Pattern.eq_of_mem_edgesBetween between between' with ⟨rfl, -⟩ | ⟨-, rfl⟩
    · exact fresh a hi
    · exact fresh c hk
  case between =>
    intro x hx
    rcases mem_place_edges.mp hx with new | old
    · obtain ⟨j, b, hj, between⟩ := fits.between x new
      exact ⟨v, t, j, b, mem_place_vertices.mpr (.inl rfl), mem_place_vertices.mpr (.inr hj),
        between⟩
    · obtain ⟨i, a, j, b, hi, hj, between⟩ := fitting.between x old
      exact ⟨i, a, j, b, mem_place_vertices.mpr (.inr hi), mem_place_vertices.mpr (.inr hj),
        between⟩
  case assigned =>
    intro i a j b hi hj different
    rcases placed hi with ⟨rfl, rfl⟩ | old <;> rcases placed hj with ⟨rfl, rfl⟩ | old'
    · exact absurd rfl different
    · obtain ⟨chosen, assigned, there⟩ := fits.assigned j b old'
      exact ⟨chosen, assigned, fun x hx => mem_place_edges.mpr (.inl (there x hx))⟩
    · obtain ⟨chosen, assigned, there⟩ := fits.assigned i a old
      rw [regular.comm, p.edgesBetween_comm]
      exact ⟨chosen, assigned, fun x hx => mem_place_edges.mpr (.inl (there x hx))⟩
    · obtain ⟨chosen, assigned, there⟩ := fitting.assigned i a j b old old' different
      exact ⟨chosen, assigned, fun x hx => mem_place_edges.mpr (.inr (there x hx))⟩

end Fitting

/-! ## Embeddings -/

/-- An embedding on the given terms. -/
structure Embeds (T : Terms) (p : Pattern) (target : Target) (m : Embedding) : Prop where
  arity : m.vertices.length = p.order
  nodup : m.vertices.Nodup
  inside : ∀ t ∈ m.vertices, t < target.order
  vertex : ∀ (i t : Nat), m.vertices[i]? = some t → T.vertex i t
  induced : ∀ i j a b : Nat, m.vertices[i]? = some a → m.vertices[j]? = some b → i ≠ j →
    p.edgesBetween i j = [] → target.edgesBetween a b = []
  edgeArity : m.edges.length = p.edges.length
  assigned : ∀ i j a b : Nat, m.vertices[i]? = some a → m.vertices[j]? = some b → i ≠ j →
    ∃ chosen, T.Assigned (target.edgesBetween a b) (p.edgesBetween i j) chosen ∧
      ∀ x ∈ (p.edgesBetween i j).zip chosen, m.edges[x.1]? = some x.2

/-- The embedding sends what has been placed where it has been placed. -/
def Agrees (m : Placement) (e : Embedding) : Prop :=
  ∀ i t, (i, t) ∈ m.vertices → e.vertices[i]? = some t

namespace Fitting

variable (fitting : Fitting T p target m)

include fitting

/-- Every vertex has been placed. -/
theorem keys (all : ∀ i < p.order, ∃ t, (i, t) ∈ m.vertices) (i : Nat) :
    i < p.order ↔ ∃ t, (i, t) ∈ m.vertices :=
  ⟨all i, fun ⟨t, h⟩ => (fitting.inside i t h).1⟩

theorem image?_eq_some_iff {i t : Nat} : m.image? i = some t ↔ (i, t) ∈ m.vertices :=
  fitting.sorted.lookup_eq_some_iff

theorem agrees_toEmbedding (all : ∀ i < p.order, ∃ t, (i, t) ∈ m.vertices) :
    Agrees m m.toEmbedding :=
  fun _ _ => (fitting.sorted.values_getElem?_iff (fitting.keys all)).mpr

/-- Once every vertex has been placed, every edge has been assigned. -/
theorem edgeKeys (plain : p.Plain) (all : ∀ i < p.order, ∃ t, (i, t) ∈ m.vertices) (k : Nat) :
    k < p.edges.length ↔ ∃ e, (k, e) ∈ m.edges := by
  constructor
  · intro inside
    obtain ⟨i, j, different, hi, hj, between⟩ := plain.exists_pair inside
    obtain ⟨a, ha⟩ := all i hi
    obtain ⟨b, hb⟩ := all j hj
    obtain ⟨chosen, assigned, there⟩ := fitting.assigned i a j b ha hb different
    obtain ⟨e, pair⟩ := assigned.1.exists_target between
    exact ⟨e, there _ pair⟩
  · rintro ⟨e, there⟩
    obtain ⟨i, a, j, b, -, -, between⟩ := fitting.between _ there
    obtain ⟨ends, found, -⟩ := Pattern.mem_edgesBetween_iff.mp between
    exact (List.getElem?_eq_some_iff.mp found).1

/-- What has been placed in the end is an embedding. -/
theorem embeds (plain : p.Plain) (all : ∀ i < p.order, ∃ t, (i, t) ∈ m.vertices) :
    Embeds T p target m.toEmbedding := by
  have at' : ∀ {i t}, m.toEmbedding.vertices[i]? = some t → (i, t) ∈ m.vertices :=
    (fitting.sorted.values_getElem?_iff (fitting.keys all)).mp
  constructor
  case arity => exact fitting.sorted.length_values (fitting.keys all)
  case nodup =>
    rw [List.nodup_iff_getElem?_ne_getElem?]
    intro i j less inside same
    have first := List.getElem?_eq_getElem (Nat.lt_trans less inside)
    exact Nat.ne_of_lt less (fitting.distinct i j _ (at' first) (at' (same ▸ first)))
  case inside =>
    intro t ht
    obtain ⟨i, found⟩ := List.getElem?_of_mem ht
    exact (fitting.inside i t (at' found)).2
  case vertex => exact fun i t found => fitting.vertex i t (at' found)
  case induced => exact fun i j a b hi hj => fitting.induced i a j b (at' hi) (at' hj)
  case edgeArity => exact fitting.edgesSorted.length_values (fitting.edgeKeys plain all)
  case assigned =>
    intro i j a b hi hj different
    obtain ⟨chosen, assigned, there⟩ := fitting.assigned i a j b (at' hi) (at' hj) different
    exact ⟨chosen, assigned, fun x hx =>
      (fitting.edgesSorted.values_getElem?_iff (fitting.edgeKeys plain all)).mpr (there x hx)⟩

end Fitting

namespace Embeds

variable {e e' : Embedding}

theorem injective (h : Embeds T p target e) {i j a : Nat} (hi : e.vertices[i]? = some a)
    (hj : e.vertices[j]? = some a) : i = j :=
  (List.getElem?_inj (List.getElem?_eq_some_iff.mp hi).1 h.nodup).mp (hi.trans hj.symm)

/-- Every pattern edge lies between two vertices that have images. -/
theorem exists_images (plain : p.Plain) (h : Embeds T p target e) {k : Nat}
    (inside : k < p.edges.length) : ∃ i j a b, i ≠ j ∧ e.vertices[i]? = some a ∧
      e.vertices[j]? = some b ∧ k ∈ p.edgesBetween i j := by
  obtain ⟨i, j, different, hi, hj, between⟩ := plain.exists_pair inside
  rw [← h.arity] at hi hj
  exact ⟨i, j, _, _, different, List.getElem?_eq_getElem hi, List.getElem?_eq_getElem hj, between⟩

/-- With an exact guide the vertices determine the embedding. -/
theorem eq_of_vertices (isExact : T.exact) (plain : p.Plain) (h : Embeds T p target e)
    (h' : Embeds T p target e') (same : e.vertices = e'.vertices) : e = e' := by
  have edges : e.edges = e'.edges := by
    apply List.ext_getElem?
    intro k
    by_cases inside : k < p.edges.length
    · obtain ⟨i, j, a, b, different, foundI, foundJ, between⟩ := h.exists_images plain inside
      obtain ⟨chosen, assigned, there⟩ := h.assigned i j a b foundI foundJ different
      rw [same] at foundI foundJ
      obtain ⟨other, assigned', there'⟩ := h'.assigned i j a b foundI foundJ different
      obtain rfl := assigned.unique isExact assigned'
      obtain ⟨target, pair⟩ := assigned.1.exists_target between
      exact (there _ pair).trans (there' _ pair).symm
    · have beyond : p.edges.length ≤ k := Nat.le_of_not_lt inside
      rw [List.getElem?_eq_none (h.edgeArity ▸ beyond),
        List.getElem?_eq_none (h'.edgeArity ▸ beyond)]
  cases e
  cases e'
  simp_all

section Edges

variable (h : Embeds T p target e) {i j a b : Nat} (hi : e.vertices[i]? = some a)
  (hj : e.vertices[j]? = some b) (different : i ≠ j)

include h hi hj different

theorem getElem?_edges {k : Nat} (between : k ∈ p.edgesBetween i j) :
    e.edges[k]? = some (e.edges.getD k 0) := by
  obtain ⟨chosen, assigned, there⟩ := h.assigned i j a b hi hj different
  obtain ⟨t, pair⟩ := assigned.1.exists_target between
  have found := there _ pair
  rw [List.getD_eq_getElem?_getD, found, Option.getD_some]

/-- The edges between two vertices are assigned as the embedding says. -/
theorem assigned_map : T.Assigned (target.edgesBetween a b) (p.edgesBetween i j)
    ((p.edgesBetween i j).map (e.edges.getD · 0)) := by
  obtain ⟨chosen, assigned, there⟩ := h.assigned i j a b hi hj different
  have same : (p.edgesBetween i j).map (e.edges.getD · 0) = chosen := by
    rw [← List.forall₂_eq_eq_eq, List.forall₂_map_left_iff, List.forall₂_iff_zip]
    refine ⟨assigned.1.length_eq.symm, fun pair => ?_⟩
    rw [List.getD_eq_getElem?_getD, there _ pair, Option.getD_some]
  rwa [same]

theorem getD_edges {k : Nat} (between : k ∈ p.edgesBetween i j) :
    e.edges.getD k 0 ∈ target.edgesBetween a b ∧ T.edge k (e.edges.getD k 0) := by
  have each := (h.assigned_map hi hj different).1.each
  rw [List.forall₂_map_right_iff, List.forall₂_same] at each
  exact each k between

end Edges

theorem nodup_edges (h : Embeds T p target e) (plain : p.Plain) (regular : target.Regular) :
    e.edges.Nodup := by
  rw [List.nodup_iff_getElem?_ne_getElem?]
  intro k l before inside same
  have below : l < p.edges.length := h.edgeArity ▸ inside
  obtain ⟨i, j, a, b, different, hi, hj, between⟩ := h.exists_images plain (before.trans below)
  obtain ⟨i', j', a', b', different', hi', hj', between'⟩ := h.exists_images plain below
  rw [h.getElem?_edges hi hj different between, h.getElem?_edges hi' hj' different' between',
    Option.some.injEq] at same
  have member := (h.getD_edges hi hj different between).1
  rw [same] at member
  -- The two images lie between the same host vertices, so the two edges are parallel.
  have parallel : l ∈ p.edgesBetween i j := by
    rcases regular.apart _ _ _ _ _ member (h.getD_edges hi' hj' different' between').1 with
      ⟨rfl, rfl⟩ | ⟨rfl, rfl⟩
    · rwa [h.injective hi hi', h.injective hj hj']
    · rwa [h.injective hi hj', h.injective hj hi', p.edgesBetween_comm]
  have distinct := (h.assigned_map hi hj different).1.nodup
  exact before.ne (List.inj_on_of_nodup_map distinct between parallel same)

end Embeds

end GraphSplice.Search
