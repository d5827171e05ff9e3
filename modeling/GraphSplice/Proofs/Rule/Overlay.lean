import GraphSplice.Proofs.Rule.Conflict
import Mathlib.Data.Finset.Card
import Mathlib.Data.Finset.Dedup
import Mathlib.Tactic.MkIffOfInductiveProp

/-!
Overlays of one rule on another. What the analysis of conflicts finds in its own numbers for each
part is told in the numbers of the rule: maps of its vertices and edges, which may be restricted to
smaller parts as they are. A clash of two elements is thus found in a part of one or two vertices.
-/

namespace GraphSplice

open Search

/-- A list as long as one without repetitions is an image of it. -/
theorem exists_eq_map {xs ys : List Nat} (nodup : xs.Nodup) (length : ys.length = xs.length) :
    ∃ f : Nat → Nat, ys = xs.map f := by
  refine ⟨fun x => ys.getD (xs.idxOf x) 0, List.ext_getElem (by simp [length]) ?_⟩
  intro i inside _
  rw [List.getElem_map, nodup.idxOf_getElem, List.getD_eq_getElem?_getD,
    List.getElem?_eq_getElem inside, Option.getD_some]

theorem toFinset_filter_mem {part : List Nat} {small : Finset Nat} (sub : small ⊆ part.toFinset) :
    (part.filter (· ∈ small)).toFinset = small := by
  ext i
  rw [List.mem_toFinset, List.mem_filter, decide_eq_true_eq]
  exact and_iff_right_of_imp fun hi => List.mem_toFinset.mp (sub hi)

namespace Pattern

variable {p : Pattern} {part : List Nat}

theorem mem_inducedOrigins_iff (nodup : part.Nodup) {k : Nat} :
    k ∈ p.inducedOrigins part ↔ ∃ i ∈ part, ∃ j ∈ part, k ∈ p.edgesBetween i j := by
  constructor
  · intro h
    obtain ⟨⟨inner, k⟩, member, rfl⟩ := List.mem_map.mp h
    obtain ⟨⟨ends, k'⟩, numbered, moved⟩ := List.mem_filterMap.mp member
    obtain ⟨inner', found, same⟩ := Option.map_eq_some_iff.mp moved
    obtain ⟨rfl, rfl⟩ := Prod.mk.inj same
    obtain ⟨first, second⟩ := (localEnds_eq_some_iff nodup).mp found
    exact ⟨_, List.mem_of_getElem? first, _, List.mem_of_getElem? second,
      mem_edgesBetween_iff.mpr ⟨ends, mem_numbered_iff.mp numbered, ends.joins_self⟩⟩
  · rintro ⟨i, hi, j, hj, between⟩
    obtain ⟨m, atI⟩ := List.getElem?_of_mem hi
    obtain ⟨n, atJ⟩ := List.getElem?_of_mem hj
    rw [← map_origin_edgesBetween nodup atI atJ, List.mem_map] at between
    obtain ⟨l, hl, rfl⟩ := between
    exact List.mem_of_getElem? (getElem?_inducedOrigins hl)

theorem nodup_inducedOrigins (p : Pattern) (part : List Nat) : (p.inducedOrigins part).Nodup := by
  have same : p.inducedOrigins part =
      (p.numbered.filter fun e => (localEnds part e.1).isSome).map (·.2) := by
    unfold inducedOrigins inducedEdges
    rw [List.map_filterMap, ← List.filterMap_eq_map, List.filterMap_filter]
    apply List.filterMap_congr
    intro e _
    cases localEnds part e.1 <;> simp
  rw [same]
  exact (p.numbered_ascending.sublist (List.filter_sublist.map _)).imp Nat.ne_of_lt

end Pattern

namespace Rule

variable {D : Domain} {victim cutter : Rule D} {place edgePlace : Nat → Nat}

/-- Vertices of the victim lie on distinct vertices of the cutter with equal tags; where the victim
has no edge between two of them, the cutter has none. -/
@[mk_iff]
structure VertexOverlay (victim cutter : Rule D) (part : Finset Nat) (place : Nat → Nat) :
    Prop where
  inside : ∀ i ∈ part, i < victim.vertices.length
  within : ∀ i ∈ part, place i < cutter.vertices.length
  injective : ∀ i ∈ part, ∀ j ∈ part, place i = place j → i = j
  vertexTag : ∀ i ∈ part, victim.vertexTag? i = cutter.vertexTag? (place i)
  induced : ∀ i ∈ part, ∀ j ∈ part, i ≠ j → victim.pattern.edgesBetween i j = [] →
    cutter.pattern.edgesBetween (place i) (place j) = []

/-- A part of the victim lies on the cutter: its vertices, and pair by pair the edges between them,
on distinct edges between the images with equal tags. -/
@[mk_iff]
structure Overlay (victim cutter : Rule D) (part : Finset Nat) (place edgePlace : Nat → Nat) :
    Prop extends victim.VertexOverlay cutter part place where
  edge : ∀ i ∈ part, ∀ j ∈ part, ∀ k ∈ victim.pattern.edgesBetween i j,
    edgePlace k ∈ cutter.pattern.edgesBetween (place i) (place j)
  edgeTag : ∀ i ∈ part, ∀ j ∈ part, ∀ k ∈ victim.pattern.edgesBetween i j,
    victim.edgeTag? k = cutter.edgeTag? (edgePlace k)
  edgeInjective : ∀ i ∈ part, ∀ j ∈ part, ∀ k ∈ victim.pattern.edgesBetween i j,
    ∀ l ∈ victim.pattern.edgesBetween i j, edgePlace k = edgePlace l → k = l

instance (victim cutter : Rule D) (part : Finset Nat) (place : Nat → Nat) :
    Decidable (victim.VertexOverlay cutter part place) :=
  decidable_of_iff' _ (vertexOverlay_iff victim cutter part place)

instance (victim cutter : Rule D) (part : Finset Nat) (place edgePlace : Nat → Nat) :
    Decidable (victim.Overlay cutter part place edgePlace) :=
  decidable_of_iff' _ (overlay_iff victim cutter part place edgePlace)

/-- The edges between two members of the part are assigned in the first possible way. -/
def AssignsInOrder (victim cutter : Rule D) (part : Finset Nat) (place edgePlace : Nat → Nat) :
    Prop := ∀ i ∈ part, ∀ j ∈ part, i ≠ j →
  victim.Pairs cutter i j (place i) (place j) ((victim.pattern.edgesBetween i j).map edgePlace)

/-- Something that the victim keeps lies on something that the cutter cuts. -/
def Spoils (victim cutter : Rule D) (part : Finset Nat) (place edgePlace : Nat → Nat) : Prop :=
  (∃ i ∈ part, victim.vertexRole? i = some .kept ∧ cutter.vertexRole? (place i) = some .cut) ∨
  ∃ i ∈ part, ∃ j ∈ part, ∃ k ∈ victim.pattern.edgesBetween i j,
    victim.edgeRole? k = some .kept ∧ cutter.edgeRole? (edgePlace k) = some .cut

instance (victim cutter : Rule D) (part : Finset Nat) (place edgePlace : Nat → Nat) :
    Decidable (victim.Spoils cutter part place edgePlace) :=
  inferInstanceAs (Decidable (_ ∨ _))

theorem Pairs.each {i j a b : Nat}
    (h : victim.Pairs cutter i j a b ((victim.pattern.edgesBetween i j).map edgePlace)) :
    ∀ k ∈ victim.pattern.edgesBetween i j, edgePlace k ∈ cutter.pattern.edgesBetween a b ∧
      victim.edgeTag? k = cutter.edgeTag? (edgePlace k) := by
  have each := h.toAssigns.each
  rwa [List.forall₂_map_right_iff, List.forall₂_same] at each

/-! ## Parts of parts -/

section Restriction

variable {small large : Finset Nat} (sub : small ⊆ large)
include sub

theorem VertexOverlay.mono (h : victim.VertexOverlay cutter large place) :
    victim.VertexOverlay cutter small place where
  inside i hi := h.inside i (sub hi)
  within i hi := h.within i (sub hi)
  injective i hi j hj := h.injective i (sub hi) j (sub hj)
  vertexTag i hi := h.vertexTag i (sub hi)
  induced i hi j hj := h.induced i (sub hi) j (sub hj)

theorem AssignsInOrder.mono (h : victim.AssignsInOrder cutter large place edgePlace) :
    victim.AssignsInOrder cutter small place edgePlace :=
  fun i hi j hj => h i (sub hi) j (sub hj)

end Restriction

/-- One vertex, or two with the edges between them, are all that a clash needs. -/
theorem Spoils.exists_small {part : Finset Nat} (h : victim.Spoils cutter part place edgePlace) :
    ∃ small ⊆ part, small.Nonempty ∧ small.card ≤ 2 ∧
      victim.Spoils cutter small place edgePlace := by
  rcases h with ⟨i, hi, clash⟩ | ⟨i, hi, j, hj, k, between, clash⟩
  · exact ⟨{i}, Finset.singleton_subset_iff.mpr hi, Finset.singleton_nonempty i,
      (Finset.card_singleton i).trans_le (by decide), .inl ⟨i, Finset.mem_singleton_self i, clash⟩⟩
  · refine ⟨{i, j}, Finset.insert_subset hi (Finset.singleton_subset_iff.mpr hj),
      Finset.insert_nonempty i _, Finset.card_le_two, .inr ?_⟩
    exact ⟨i, Finset.mem_insert_self i _, j, Finset.mem_insert_of_mem (Finset.mem_singleton_self j),
      k, between, clash⟩

/-! ## Embeddings of parts -/

/-- The embedding of a part that the maps describe. -/
def embedding (victim : Rule D) (part : List Nat) (place edgePlace : Nat → Nat) : Embedding :=
  ⟨part.map place, (victim.pattern.inducedOrigins part).map edgePlace⟩

variable {part : List Nat}

theorem exists_getElem?_embedding {i : Nat} (hi : i ∈ part) : ∃ n : Nat, part[n]? = some i ∧
    (victim.embedding part place edgePlace).vertices[n]? = some (place i) := by
  obtain ⟨n, found⟩ := List.getElem?_of_mem hi
  exact ⟨n, found, by rw [embedding, List.getElem?_map, found, Option.map_some]⟩

/-- Two members of the part stand in two places, and so do their images. -/
theorem exists_places {i j : Nat} (hi : i ∈ part) (hj : j ∈ part) (different : i ≠ j) :
    ∃ m n : Nat, m ≠ n ∧ part[m]? = some i ∧ part[n]? = some j ∧
      (victim.embedding part place edgePlace).vertices[m]? = some (place i) ∧
      (victim.embedding part place edgePlace).vertices[n]? = some (place j) := by
  obtain ⟨m, atI, imageI⟩ := exists_getElem?_embedding hi
  obtain ⟨n, atJ, imageJ⟩ := exists_getElem?_embedding hj
  refine ⟨m, n, ?_, atI, atJ, imageI, imageJ⟩
  rintro rfl
  exact different (Option.some.inj (atI.symm.trans atJ))

theorem exists_of_getElem?_embedding {n t : Nat}
    (h : (victim.embedding part place edgePlace).vertices[n]? = some t) :
    ∃ i, part[n]? = some i ∧ place i = t :=
  Option.map_eq_some_iff.mp (List.getElem?_map.symm.trans h)

theorem getElem?_embedding_edges {i j k : Nat}
    (h : k ∈ (victim.pattern.induced part).edgesBetween i j) :
    (victim.embedding part place edgePlace).edges[k]? =
      some (edgePlace ((victim.pattern.inducedOrigins part).getD k 0)) := by
  rw [embedding, List.getElem?_map, Pattern.getElem?_inducedOrigins h, Option.map_some]

section Renumbering

variable (nodup : part.Nodup)
include nodup

theorem edgesBetween_induced_eq_nil_iff {i j m n : Nat} (hm : part[m]? = some i)
    (hn : part[n]? = some j) : (victim.pattern.induced part).edgesBetween m n = [] ↔
      victim.pattern.edgesBetween i j = [] := by
  rw [← victim.pattern.map_origin_edgesBetween nodup hm hn, List.map_eq_nil_iff]

/-- An assignment of the edges between two places of the part is one of the edges that they stand
for. -/
theorem assigned_overlapTerms_iff {i j m n : Nat} (hm : part[m]? = some i) (hn : part[n]? = some j)
    {a b : Nat} {chosen : List Nat} :
    (victim.overlapTerms cutter part).Assigned (cutter.pattern.edgesBetween a b)
      ((victim.pattern.induced part).edgesBetween m n) chosen ↔
    victim.Pairs cutter i j a b chosen := by
  have first : AssignsFirst (· < ·) (victim.overlapTerms cutter part).edge
      (cutter.pattern.edgesBetween a b) [] ((victim.pattern.induced part).edgesBetween m n)
      chosen ↔ victim.Pairs cutter i j a b chosen := by
    rw [Pairs, ← victim.pattern.map_origin_edgesBetween nodup hm hn]
    refine AssignsFirst.map_iff fun k hk t => ?_
    simp only [overlapTerms]
    rw [Pattern.getElem?_inducedOrigins hk, Option.bind_some]
  rw [← first]
  exact ⟨fun h => h.2 trivial, fun h => ⟨h.toAssigns, fun _ => h⟩⟩

theorem vertexOverlay_of_overlaps (inside : ∀ i ∈ part, i < victim.vertices.length)
    (h : victim.Overlaps cutter part (victim.embedding part place edgePlace)) :
    victim.VertexOverlay cutter part.toFinset place := by
  constructor <;> simp only [List.mem_toFinset]
  case inside => exact inside
  case within => exact fun i hi => h.inside _ (List.mem_map_of_mem hi)
  case injective => exact fun i hi j hj => List.inj_on_of_nodup_map h.nodup hi hj
  case vertexTag =>
    intro i hi
    obtain ⟨n, found, image⟩ := exists_getElem?_embedding hi
    simpa only [overlapTerms, found, Option.bind_some] using h.vertex n _ image
  case induced =>
    intro i hi j hj different none
    obtain ⟨m, n, apart, atI, atJ, imageI, imageJ⟩ := exists_places hi hj different
    exact h.induced m n _ _ imageI imageJ apart
      ((edgesBetween_induced_eq_nil_iff nodup atI atJ).mpr none)

theorem assignsInOrder_of_overlaps
    (h : victim.Overlaps cutter part (victim.embedding part place edgePlace)) :
    victim.AssignsInOrder cutter part.toFinset place edgePlace := by
  intro i hi j hj different
  obtain ⟨m, n, apart, atI, atJ, imageI, imageJ⟩ :=
    exists_places (List.mem_toFinset.mp hi) (List.mem_toFinset.mp hj) different
  have assigned := (assigned_overlapTerms_iff nodup atI atJ).mp (h.assigned_map imageI imageJ apart)
  have images : ((victim.pattern.induced part).edgesBetween m n).map
      ((victim.embedding part place edgePlace).edges.getD · 0) =
        (victim.pattern.edgesBetween i j).map edgePlace := by
    rw [← victim.pattern.map_origin_edgesBetween nodup atI atJ, List.map_map]
    refine List.map_congr_left fun k hk => ?_
    rw [List.getD_eq_getElem?_getD, getElem?_embedding_edges hk]
    rfl
  rwa [images] at assigned

theorem overlaps_of_overlay (overlay : victim.VertexOverlay cutter part.toFinset place)
    (inOrder : victim.AssignsInOrder cutter part.toFinset place edgePlace) :
    victim.Overlaps cutter part (victim.embedding part place edgePlace) := by
  have member : ∀ {n i : Nat}, part[n]? = some i → i ∈ part.toFinset := fun found =>
    List.mem_toFinset.mpr (List.mem_of_getElem? found)
  have apart : ∀ {m n i j : Nat}, part[m]? = some i → part[n]? = some j → m ≠ n → i ≠ j := by
    rintro m n i j atI atJ different rfl
    have inside := (List.getElem?_eq_some_iff.mp atI).1
    exact different ((List.getElem?_inj inside nodup).mp (atI.trans atJ.symm))
  constructor
  case arity => exact List.length_map _
  case nodup =>
    refine nodup.map_on fun i hi j hj => ?_
    exact overlay.injective i (List.mem_toFinset.mpr hi) j (List.mem_toFinset.mpr hj)
  case inside =>
    intro t ht
    obtain ⟨i, hi, rfl⟩ := List.mem_map.mp ht
    exact overlay.within i (List.mem_toFinset.mpr hi)
  case vertex =>
    intro n t image
    obtain ⟨i, found, rfl⟩ := exists_of_getElem?_embedding image
    simpa only [overlapTerms, found, Option.bind_some] using overlay.vertexTag i (member found)
  case induced =>
    intro m n a b imageI imageJ different none
    obtain ⟨i, atI, rfl⟩ := exists_of_getElem?_embedding imageI
    obtain ⟨j, atJ, rfl⟩ := exists_of_getElem?_embedding imageJ
    exact overlay.induced i (member atI) j (member atJ) (apart atI atJ different)
      ((edgesBetween_induced_eq_nil_iff nodup atI atJ).mp none)
  case edgeArity => rw [embedding, List.length_map, Pattern.length_inducedOrigins]
  case assigned =>
    intro m n a b imageI imageJ different
    obtain ⟨i, atI, rfl⟩ := exists_of_getElem?_embedding imageI
    obtain ⟨j, atJ, rfl⟩ := exists_of_getElem?_embedding imageJ
    refine ⟨_, (assigned_overlapTerms_iff nodup atI atJ).mpr
      (inOrder i (member atI) j (member atJ) (apart atI atJ different)), ?_⟩
    rw [← victim.pattern.map_origin_edgesBetween nodup atI atJ, List.map_map]
    intro x sent
    rw [← List.map_prod_left_eq_zip] at sent
    obtain ⟨k, hk, rfl⟩ := List.mem_map.mp sent
    exact getElem?_embedding_edges hk

theorem hits_embedding_iff :
    victim.hits cutter part (victim.embedding part place edgePlace) = true ↔
      victim.Spoils cutter part.toFinset place edgePlace := by
  rw [hits_iff, Spoils]
  simp only [List.mem_toFinset]
  refine or_congr ⟨?_, ?_⟩ ⟨?_, ?_⟩
  · rintro ⟨n, i, t, found, image, kept, cut⟩
    obtain ⟨i', found', rfl⟩ := exists_of_getElem?_embedding image
    cases found.symm.trans found'
    exact ⟨i, List.mem_of_getElem? found, kept, cut⟩
  · rintro ⟨i, hi, kept, cut⟩
    obtain ⟨n, found, image⟩ := exists_getElem?_embedding hi
    exact ⟨n, i, _, found, image, kept, cut⟩
  · rintro ⟨n, k, t, found, image, kept, cut⟩
    obtain ⟨k', found', rfl⟩ := Option.map_eq_some_iff.mp (List.getElem?_map.symm.trans image)
    cases found.symm.trans found'
    obtain ⟨i, hi, j, hj, between⟩ :=
      (Pattern.mem_inducedOrigins_iff nodup).mp (List.mem_of_getElem? found)
    exact ⟨i, hi, j, hj, k, between, kept, cut⟩
  · rintro ⟨i, hi, j, hj, k, between, kept, cut⟩
    obtain ⟨n, found⟩ := List.getElem?_of_mem
      ((Pattern.mem_inducedOrigins_iff nodup).mpr ⟨i, hi, j, hj, between⟩)
    exact ⟨n, k, _, found, by rw [embedding, List.getElem?_map, found, Option.map_some], kept, cut⟩

/-- Every embedding of a part is described by maps of the victim. -/
theorem exists_eq_embedding {m : Embedding} (h : victim.Overlaps cutter part m) :
    ∃ place edgePlace, m = victim.embedding part place edgePlace := by
  obtain ⟨place, vertices⟩ := exists_eq_map nodup h.arity
  obtain ⟨edgePlace, edges⟩ := exists_eq_map (victim.pattern.nodup_inducedOrigins part)
    (h.edgeArity.trans (victim.pattern.length_inducedOrigins part).symm)
  exact ⟨place, edgePlace, congrArg₂ Embedding.mk vertices edges⟩

end Renumbering

section Plain

variable (victimPlain : victim.pattern.Plain)
include victimPlain

/-- Edges assigned in order lie on distinct edges with equal tags. -/
theorem VertexOverlay.overlay {part : Finset Nat} (h : victim.VertexOverlay cutter part place)
    (inOrder : victim.AssignsInOrder cutter part place edgePlace) :
    victim.Overlay cutter part place edgePlace := by
  have pairs : ∀ i ∈ part, ∀ j ∈ part, ∀ k ∈ victim.pattern.edgesBetween i j,
      victim.Pairs cutter i j (place i) (place j)
        ((victim.pattern.edgesBetween i j).map edgePlace) :=
    fun i hi j hj k hk => inOrder i hi j hj (victimPlain.distinct hk).1
  refine ⟨h, ?_, ?_, ?_⟩
  · exact fun i hi j hj k hk => ((pairs i hi j hj k hk).each k hk).1
  · exact fun i hi j hj k hk => ((pairs i hi j hj k hk).each k hk).2
  · exact fun i hi j hj k hk l hl => List.inj_on_of_nodup_map (pairs i hi j hj k hk).nodup hk hl

variable (cutterPlain : cutter.pattern.Plain)
include cutterPlain

/-- The analysis with parts of a bounded size, told without the numbers that it gives to them. -/
theorem conflictsWithin_iff_overlay {bound : Nat} : victim.conflictsWithin cutter bound = true ↔
    ∃ (part : Finset Nat) (place edgePlace : Nat → Nat), part.Nonempty ∧ part.card ≤ bound ∧
      victim.Overlay cutter part place edgePlace ∧
      victim.AssignsInOrder cutter part place edgePlace ∧
      victim.Spoils cutter part place edgePlace := by
  rw [conflictsWithin_iff victimPlain cutterPlain]
  constructor
  · rintro ⟨part, sub, nonempty, few, m, overlaps, hit⟩
    have nodup := List.nodup_range.sublist sub
    obtain ⟨place, edgePlace, rfl⟩ := exists_eq_embedding nodup overlaps
    have inOrder := assignsInOrder_of_overlaps nodup overlaps
    have overlay := vertexOverlay_of_overlaps nodup (sublist_range_iff.mp sub).2 overlaps
    exact ⟨part.toFinset, place, edgePlace, List.toFinset_nonempty_iff _ |>.mpr nonempty,
      (List.toFinset_card_le part).trans few, overlay.overlay victimPlain inOrder, inOrder,
      (hits_embedding_iff nodup).mp hit⟩
  · rintro ⟨part, place, edgePlace, nonempty, few, overlay, inOrder, spoils⟩
    let listed := (List.range victim.vertices.length).filter (· ∈ part)
    have sub : listed.Sublist (List.range victim.vertices.length) := List.filter_sublist
    have nodup := List.nodup_range.sublist sub
    have same : listed.toFinset = part := toFinset_filter_mem fun i hi =>
      List.mem_toFinset.mpr (List.mem_range.mpr (overlay.inside i hi))
    rw [← same] at nonempty few overlay inOrder spoils
    rw [List.toFinset_card_of_nodup nodup] at few
    exact ⟨listed, sub, List.toFinset_nonempty_iff _ |>.mp nonempty, few,
      victim.embedding listed place edgePlace,
      overlaps_of_overlay nodup overlay.toVertexOverlay inOrder,
      (hits_embedding_iff nodup).mpr spoils⟩

theorem conflicts_iff_overlay : victim.conflicts cutter = true ↔
    ∃ (part : Finset Nat) (place edgePlace : Nat → Nat), part.Nonempty ∧
      victim.Overlay cutter part place edgePlace ∧
      victim.AssignsInOrder cutter part place edgePlace ∧
      victim.Spoils cutter part place edgePlace := by
  rw [← conflictsWithin_length, conflictsWithin_iff_overlay victimPlain cutterPlain]
  constructor
  · rintro ⟨part, place, edgePlace, nonempty, -, found⟩
    exact ⟨part, place, edgePlace, nonempty, found⟩
  · rintro ⟨part, place, edgePlace, nonempty, overlay, found⟩
    have few : part.card ≤ victim.vertices.length := by
      rw [← Finset.card_range victim.vertices.length]
      exact Finset.card_le_card fun i hi => Finset.mem_range.mpr (overlay.inside i hi)
    exact ⟨part, place, edgePlace, nonempty, few, overlay, found⟩

/-- A kept vertex conflicts with a cut one of its tag. -/
theorem conflicts_of_vertex {i t : Nat} (tag : victim.vertexTag? i = cutter.vertexTag? t)
    (kept : victim.vertexRole? i = some .kept) (cut : cutter.vertexRole? t = some .cut) :
    victim.conflicts cutter = true := by
  have overlay : victim.VertexOverlay cutter {i} fun _ => t := by
    constructor <;> simp only [Finset.mem_singleton, forall_eq, ne_eq, not_true_eq_false,
      false_implies, implies_true]
    case inside => exact lt_of_vertexRole? kept
    case within => exact lt_of_vertexRole? cut
    case vertexTag => exact tag
  have inOrder : victim.AssignsInOrder cutter {i} (fun _ => t) (fun k => k) := by
    intro x hx y hy different
    rw [Finset.mem_singleton] at hx hy
    exact absurd (hx.trans hy.symm) different
  exact (conflicts_iff_overlay victimPlain cutterPlain).mpr ⟨{i}, _, _,
    Finset.singleton_nonempty i, overlay.overlay victimPlain inOrder, inOrder,
    .inl ⟨i, Finset.mem_singleton_self i, kept, cut⟩⟩

/-- A kept edge conflicts with the cut edge that it is sent to with the edges parallel to it. -/
theorem conflicts_of_pairs {i j a b : Nat} (first : victim.vertexTag? i = cutter.vertexTag? a)
    (second : victim.vertexTag? j = cutter.vertexTag? b) {chosen : List Nat}
    (pairs : victim.Pairs cutter i j a b chosen) {k t : Nat}
    (sent : (k, t) ∈ (victim.pattern.edgesBetween i j).zip chosen)
    (kept : victim.edgeRole? k = some .kept) (cut : cutter.edgeRole? t = some .cut) :
    victim.conflicts cutter = true := by
  have joins := (List.of_mem_zip sent).1
  obtain ⟨different, belowI, belowJ⟩ := victimPlain.distinct joins
  let place : Nat → Nat := fun x => if x = i then a else b
  have placeI : place i = a := if_pos rfl
  have placeJ : place j = b := if_neg different.symm
  obtain ⟨edgePlace, rfl⟩ := exists_eq_map (victim.pattern.nodup_edgesBetween i j)
    pairs.toAssigns.each.length_eq.symm
  rw [← List.map_prod_left_eq_zip] at sent
  obtain ⟨k, hk, same⟩ := List.mem_map.mp sent
  obtain ⟨rfl, rfl⟩ := Prod.mk.inj same
  obtain ⟨different', belowA, belowB⟩ := cutterPlain.distinct (pairs.each k hk).1
  have overlay : victim.VertexOverlay cutter {i, j} place := by
    constructor <;> simp only [Finset.mem_insert, Finset.mem_singleton, forall_eq_or_imp, forall_eq,
      placeI, placeJ]
    case inside => exact ⟨belowI, belowJ⟩
    case within => exact ⟨belowA, belowB⟩
    case injective =>
      exact ⟨⟨fun _ => trivial, fun h => absurd h different'⟩, fun h => absurd h.symm different',
        fun _ => trivial⟩
    case vertexTag => exact ⟨first, second⟩
    case induced =>
      have joined := List.ne_nil_of_mem hk
      refine ⟨⟨fun h => absurd rfl h, fun _ none => absurd none joined⟩,
        fun _ none => absurd (Pattern.edgesBetween_comm _ _ _ ▸ none) joined, fun h => absurd rfl h⟩
  have inOrder : victim.AssignsInOrder cutter {i, j} place edgePlace := by
    intro x hx y hy apart
    simp only [Finset.mem_insert, Finset.mem_singleton] at hx hy
    rcases hx with rfl | rfl <;> rcases hy with rfl | rfl
    · exact absurd rfl apart
    · rwa [placeI, placeJ]
    · rw [placeI, placeJ, Pattern.edgesBetween_comm]
      exact pairs.swap
    · exact absurd rfl apart
  refine (conflicts_iff_overlay victimPlain cutterPlain).mpr ⟨{i, j}, place, edgePlace,
    Finset.insert_nonempty i _, overlay.overlay victimPlain inOrder, inOrder, .inr ?_⟩
  exact ⟨i, Finset.mem_insert_self i _, j, Finset.mem_insert_of_mem (Finset.mem_singleton_self j),
    k, hk, kept, cut⟩

end Plain

end Rule

end GraphSplice
