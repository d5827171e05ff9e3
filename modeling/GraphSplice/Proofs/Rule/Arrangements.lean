import GraphSplice.Proofs.Lists
import GraphSplice.Rule.Symmetry
import Mathlib.Data.List.Nodup
import Mathlib.Data.List.Perm.Basic
import Mathlib.Data.List.Perm.Subperm

/-!
Arrangements as permutations. An arrangement of `0, …, n - 1` acts on all numbers, those from `n` on
being fixed; composition and the action on vertex sequences follow from how it acts.
-/

namespace GraphSplice.Symmetry

/-- What the enumeration yields: each value beyond `start` is new and allowed after those before
it. -/
theorem mem_arrangements {n : Nat} {allowed : Arrangement → Nat → Bool} {count : Nat}
    {start a : Arrangement} :
    a ∈ arrangements n allowed count start ↔
      ∃ rest, a = start ++ rest ∧ rest.length = count ∧ ∀ (i j : Nat), rest[i]? = some j →
        j < n ∧ j ∉ start ++ rest.take i ∧ allowed (start ++ rest.take i) j = true := by
  induction count generalizing start with
  | zero =>
    simp only [arrangements, List.mem_singleton]
    constructor
    · rintro rfl
      exact ⟨[], by simp, rfl, by simp⟩
    · rintro ⟨rest, rfl, none, -⟩
      simp [List.length_eq_zero_iff.mp none]
  | succ count ih =>
    simp only [arrangements, List.mem_flatMap, List.mem_filter, List.mem_range,
      decide_eq_true_eq, ih]
    constructor
    · rintro ⟨j, ⟨below, fresh, fits⟩, rest, rfl, length, each⟩
      refine ⟨j :: rest, by simp, by simp [length], ?_⟩
      intro i k found
      cases i with
      | zero =>
        cases found
        simpa using ⟨below, fresh, fits⟩
      | succ i => simpa using each i k found
    · rintro ⟨rest, rfl, length, each⟩
      cases rest with
      | nil => cases length
      | cons j rest =>
        refine ⟨j, by simpa using each 0 j rfl, rest, by simp, by simpa using length, ?_⟩
        intro i k found
        simpa using each (i + 1) k found

namespace Arrangement

variable {n : Nat} {sigma tau : Arrangement}

/-- The arrangement takes each of `0, …, n - 1` once. -/
def Permutes (sigma : Arrangement) (n : Nat) : Prop := sigma.Perm (List.range n)

theorem permutes_of_nodup (nodup : sigma.Nodup) (length : sigma.length = n)
    (below : ∀ j ∈ sigma, j < n) : sigma.Permutes n :=
  (List.subperm_of_subset nodup fun j hj => List.mem_range.mpr (below j hj)).perm_of_length_le
    (by simp [length])

theorem permutes_range (n : Nat) : Arrangement.Permutes (List.range n) n := .refl _

/-- Complete arrangements, each value of which is allowed after those before it. -/
theorem mem_arrangements_iff {allowed : Arrangement → Nat → Bool} :
    sigma ∈ arrangements n allowed n [] ↔ sigma.Permutes n ∧
      ∀ i j : Nat, sigma[i]? = some j → allowed (sigma.take i) j = true := by
  rw [mem_arrangements]
  constructor
  · rintro ⟨rest, rfl, length, each⟩
    simp only [List.nil_append] at each ⊢
    have nodup : sigma.Nodup := nodup_iff_not_mem_take.mpr fun i j found => (each i j found).2.1
    refine ⟨permutes_of_nodup nodup length fun j hj => ?_, fun i j found => (each i j found).2.2⟩
    obtain ⟨i, found⟩ := List.mem_iff_getElem?.mp hj
    exact (each i j found).1
  · rintro ⟨permutes, each⟩
    refine ⟨sigma, rfl, by simpa using List.Perm.length_eq permutes, ?_⟩
    intro i j found
    have nodup : sigma.Nodup := permutes.nodup_iff.mpr List.nodup_range
    exact ⟨List.mem_range.mp (permutes.subset (List.mem_of_getElem? found)),
      nodup_iff_not_mem_take.mp nodup i j found, each i j found⟩

namespace Permutes

theorem length (h : sigma.Permutes n) : sigma.length = n := by
  have same := h.length_eq
  simpa using same

theorem nodup (h : sigma.Permutes n) : sigma.Nodup := h.nodup_iff.mpr List.nodup_range

theorem mem_iff (h : sigma.Permutes n) {j : Nat} : j ∈ sigma ↔ j < n := by
  rw [List.Perm.mem_iff h, List.mem_range]

theorem getElem? (h : sigma.Permutes n) {i : Nat} (below : i < n) :
    sigma[i]? = some (sigma.apply i) := by
  have inside : i < sigma.length := h.length ▸ below
  simp [Arrangement.apply, List.getD_eq_getElem?_getD, inside]

theorem apply_take (h : sigma.Permutes n) {i j : Nat} (below : i < n) (before : j < i) :
    Arrangement.apply (sigma.take i) j = sigma.apply j := by
  have found : (sigma.take i)[j]? = some (sigma.apply j) := by
    rw [List.getElem?_take, if_pos before, h.getElem? (Nat.lt_trans before below)]
  simp [Arrangement.apply, List.getD_eq_getElem?_getD, found]

theorem length_take (h : sigma.Permutes n) {i : Nat} (below : i < n) :
    (sigma.take i).length = i := by
  rw [List.length_take, h.length, Nat.min_eq_left (Nat.le_of_lt below)]

theorem forall_getElem?_iff (h : sigma.Permutes n) {P : Nat → Nat → Prop} :
    (∀ i j : Nat, sigma[i]? = some j → P i j) ↔ ∀ i < n, P i (sigma.apply i) := by
  constructor
  · exact fun each i below => each i _ (h.getElem? below)
  · intro each i j found
    have below : i < n := h.length ▸ (List.getElem?_eq_some_iff.mp found).1
    cases found.symm.trans (h.getElem? below)
    exact each i below

theorem apply_of_le (h : sigma.Permutes n) {i : Nat} (above : n ≤ i) : sigma.apply i = i := by
  have outside : sigma.length ≤ i := h.length ▸ above
  simp [Arrangement.apply, List.getD_eq_getElem?_getD, outside]

theorem apply_lt_iff (h : sigma.Permutes n) {i : Nat} : sigma.apply i < n ↔ i < n := by
  by_cases below : i < n
  · exact ⟨fun _ => below, fun _ => h.mem_iff.mp (List.mem_of_getElem? (h.getElem? below))⟩
  · rw [h.apply_of_le (Nat.not_lt.mp below)]

theorem apply_injective (h : sigma.Permutes n) : Function.Injective sigma.apply := by
  intro i j same
  by_cases below : i < n
  · have below' : j < n := h.apply_lt_iff.mp (same ▸ h.apply_lt_iff.mpr below)
    refine (List.getElem?_inj (h.length ▸ below) h.nodup).mp ?_
    rw [h.getElem? below, h.getElem? below', same]
  · have outside : ¬ j < n := fun inside =>
      below (h.apply_lt_iff.mp (same ▸ h.apply_lt_iff.mpr inside))
    rwa [h.apply_of_le (Nat.not_lt.mp below), h.apply_of_le (Nat.not_lt.mp outside)] at same

theorem exists_apply (h : sigma.Permutes n) (j : Nat) : ∃ i, sigma.apply i = j := by
  by_cases below : j < n
  · obtain ⟨i, found⟩ := List.mem_iff_getElem?.mp (h.mem_iff.mpr below)
    exact ⟨i, by simp [Arrangement.apply, List.getD_eq_getElem?_getD, found]⟩
  · exact ⟨j, h.apply_of_le (Nat.not_lt.mp below)⟩

theorem exists_reordered {α : Type} {xs : List α} (h : sigma.Permutes xs.length) :
    ∃ ys : List α, ys.Perm xs ∧ ∀ i : Nat, ys[i]? = xs[sigma.apply i]? := by
  refine ⟨sigma.filterMap (xs[·]?), ?_, fun i => ?_⟩
  · exact (List.Perm.filterMap (xs[·]?) h).trans (.of_eq (filterMap_range xs))
  · have total : ∀ j ∈ sigma, (xs[j]?).isSome = true := by
      intro j hj
      simpa using h.mem_iff.mp hj
    have places := congrArg (fun ys => ys[i]?) (map_some_filterMap total)
    by_cases below : i < xs.length
    · obtain ⟨x, found⟩ := Option.isSome_iff_exists.mp
        (total _ (List.mem_of_getElem? (h.getElem? below)))
      simpa [h.getElem? below, found] using places
    · have above := Nat.not_lt.mp below
      rw [h.apply_of_le above, List.getElem?_eq_none above]
      simpa [h.length, above] using places

end Permutes

/-- First `sigma`, then `tau`. -/
def next (sigma tau : Arrangement) : Arrangement := sigma.map tau.apply

theorem Permutes.next (h : sigma.Permutes n) (h' : tau.Permutes n) :
    (sigma.next tau).Permutes n := by
  refine permutes_of_nodup (h.nodup.map h'.apply_injective) ?_ ?_
  · simp [Arrangement.next, h.length]
  · intro j hj
    obtain ⟨i, hi, rfl⟩ := List.mem_map.mp hj
    exact h'.apply_lt_iff.mpr (h.mem_iff.mp hi)

theorem Permutes.apply_next (h : sigma.Permutes n) (h' : tau.Permutes n) (i : Nat) :
    (sigma.next tau).apply i = tau.apply (sigma.apply i) := by
  by_cases below : i < n
  · have found := (h.next h').getElem? below
    simp only [Arrangement.next, List.getElem?_map, h.getElem? below, Option.map_some,
      Option.some.injEq] at found
    exact found.symm
  · have above := Nat.not_lt.mp below
    rw [(h.next h').apply_of_le above, h.apply_of_le above, h'.apply_of_le above]

@[simp] theorem apply_range (n i : Nat) : Arrangement.apply (List.range n) i = i := by
  by_cases below : i < n
  · simp [Arrangement.apply, List.getD_eq_getElem?_getD, below]
  · exact (permutes_range n).apply_of_le (Nat.not_lt.mp below)

end Arrangement

variable {n : Nat} {sigma tau : Arrangement} {vertices : List Nat}

theorem permute_eq_map (h : sigma.Permutes n) (length : vertices.length = n) :
    permute sigma vertices = sigma.map (vertices.getD · 0) := by
  have total : ∀ j ∈ sigma, vertices[j]? = some (vertices.getD j 0) := by
    intro j hj
    have inside : j < vertices.length := length ▸ h.mem_iff.mp hj
    simp [List.getD_eq_getElem?_getD, inside]
  rw [permute, List.filterMap_congr total, ← List.filterMap_eq_map]
  rfl

theorem length_permute (h : sigma.Permutes n) (length : vertices.length = n) :
    (permute sigma vertices).length = n := by
  rw [permute_eq_map h length, List.length_map, h.length]

theorem getElem?_permute (h : sigma.Permutes n) (length : vertices.length = n) (i : Nat) :
    (permute sigma vertices)[i]? = vertices[sigma.apply i]? := by
  by_cases below : i < n
  · have inside : sigma.apply i < vertices.length := length ▸ h.apply_lt_iff.mpr below
    rw [permute_eq_map h length, List.getElem?_map, h.getElem? below, Option.map_some]
    simp [List.getD_eq_getElem?_getD, inside]
  · have above := Nat.not_lt.mp below
    rw [h.apply_of_le above, List.getElem?_eq_none ((length_permute h length).symm ▸ above),
      List.getElem?_eq_none (length ▸ above)]

theorem permute_next (h : sigma.Permutes n) (h' : tau.Permutes n) (length : vertices.length = n) :
    permute (sigma.next tau) vertices = permute sigma (permute tau vertices) := by
  refine List.ext_getElem? fun i => ?_
  rw [getElem?_permute (h.next h') length, getElem?_permute h (length_permute h' length),
    getElem?_permute h' length, h.apply_next h']

theorem permute_range (length : vertices.length = n) : permute (List.range n) vertices = vertices :=
  List.ext_getElem? fun i => by
    rw [getElem?_permute (Arrangement.permutes_range n) length, Arrangement.apply_range]

theorem mem_permute (h : sigma.Permutes n) (length : vertices.length = n) {v : Nat} :
    v ∈ permute sigma vertices ↔ v ∈ vertices := by
  simp only [List.mem_iff_getElem?, getElem?_permute h length]
  constructor
  · rintro ⟨i, found⟩
    exact ⟨sigma.apply i, found⟩
  · rintro ⟨j, found⟩
    obtain ⟨i, rfl⟩ := h.exists_apply j
    exact ⟨i, found⟩

theorem nodup_permute (h : sigma.Permutes n) (length : vertices.length = n)
    (nodup : vertices.Nodup) : (permute sigma vertices).Nodup := by
  rw [List.nodup_iff_getElem?_ne_getElem?]
  intro i j before inside same
  rw [getElem?_permute h length, getElem?_permute h length] at same
  rw [length_permute h length] at inside
  have placed := length ▸ h.apply_lt_iff.mpr (Nat.lt_trans before inside)
  have equal := (List.getElem?_inj placed nodup).mp same
  exact Nat.ne_of_lt before (h.apply_injective equal)

/-- The vertices of an occurrence in another order of the pattern. -/
def rearrange (sigma : Arrangement) (vertices : List VertexId) : List VertexId :=
  sigma.filterMap fun i => vertices[i]?

theorem rearrange_map (sigma : Arrangement) (vertices : List Nat) :
    rearrange sigma (vertices.map Handle.mk) = (permute sigma vertices).map Handle.mk := by
  unfold rearrange permute
  rw [List.map_filterMap]
  simp only [List.getElem?_map]

theorem rearrange_eq (sigma : Arrangement) (bound : List VertexId) :
    rearrange sigma bound = (permute sigma (bound.map Handle.slot)).map Handle.mk := by
  rw [← rearrange_map, List.map_map]
  exact congrArg _ (List.map_id bound).symm

theorem getElem?_rearrange (h : sigma.Permutes n) {bound : List VertexId} (length : bound.length = n)
    (i : Nat) : (rearrange sigma bound)[i]? = bound[sigma.apply i]? := by
  rw [rearrange_eq, List.getElem?_map, getElem?_permute h (by rwa [List.length_map]),
    List.getElem?_map, Option.map_map]
  exact congrFun Option.map_id _

theorem length_rearrange (h : sigma.Permutes n) {bound : List VertexId} (length : bound.length = n) :
    (rearrange sigma bound).length = n := by
  rw [rearrange_eq, List.length_map, length_permute h (by rwa [List.length_map])]

theorem mem_rearrange (h : sigma.Permutes n) {bound : List VertexId} (length : bound.length = n)
    {v : VertexId} : v ∈ rearrange sigma bound ↔ v ∈ bound := by
  rw [← List.length_map Handle.slot] at length
  simp only [rearrange_eq, List.mem_map, mem_permute h length]
  constructor
  · rintro ⟨_, ⟨u, hu, rfl⟩, rfl⟩
    exact hu
  · exact fun hv => ⟨_, ⟨v, hv, rfl⟩, rfl⟩

theorem nodup_rearrange (h : sigma.Permutes n) {bound : List VertexId} (length : bound.length = n)
    (nodup : bound.Nodup) : (rearrange sigma bound).Nodup := by
  rw [rearrange_eq]
  have slots : (bound.map Handle.slot).Nodup := nodup.map fun _ _ => Handle.ext_slot
  exact (nodup_permute h (by rwa [List.length_map]) slots).map fun _ _ same => Handle.mk.inj same

end GraphSplice.Symmetry
