import GraphSplice.Proofs.Rule.Twins

/-!
The list of the symmetries of a rule as a group. The search tries permutations in lexicographic
order, so it comes upon the identity first and upon none twice; what it lists is closed under
composition and inverses. Its orbits are the classes of embeddings with one key.
-/

namespace GraphSplice.Symmetry

namespace Arrangement

variable {n : Nat} {sigma tau : Arrangement}

theorem Permutes.ext (h : sigma.Permutes n) (h' : tau.Permutes n)
    (same : ∀ i < n, sigma.apply i = tau.apply i) : sigma = tau := by
  refine List.ext_getElem (h.length.trans h'.length.symm) fun i inside inside' => ?_
  have below : i < n := h.length ▸ inside
  apply Option.some.inj
  rw [← List.getElem?_eq_getElem inside, ← List.getElem?_eq_getElem inside', h.getElem? below,
    h'.getElem? below, same i below]

/-- What undoes a permutation is undone by it. -/
theorem Permutes.next_comm_of_eq_range (h : sigma.Permutes n) (h' : tau.Permutes n)
    (undone : tau.next sigma = List.range n) : sigma.next tau = List.range n := by
  refine (h.next h').ext (permutes_range n) fun i _ => ?_
  rw [h.apply_next h', apply_range]
  apply h.apply_injective
  rw [← h'.apply_next h, undone, apply_range]

end Arrangement

/-- Permutations of `0, …, n - 1` that form a group, each listed once and the identity first. -/
structure IsGroup (group : List Arrangement) (n : Nat) : Prop where
  permutes : ∀ sigma ∈ group, sigma.Permutes n
  nodup : group.Nodup
  identity : group.head? = some (List.range n)
  next : ∀ sigma ∈ group, ∀ tau ∈ group, sigma.next tau ∈ group
  inverse : ∀ sigma ∈ group, ∃ tau ∈ group,
    sigma.next tau = List.range n ∧ tau.next sigma = List.range n

/-- Where every value may stand in its own place, no other arrangement comes before the
identity. -/
theorem head?_arrangements {n : Nat} {allowed : Arrangement → Nat → Bool}
    (allows : ∀ j < n, allowed (List.range j) j = true) {m count : Nat} (total : m + count = n) :
    (arrangements n allowed count (List.range m)).head? = some (List.range n) := by
  induction count generalizing m with
  | zero =>
    subst total
    rfl
  | succ count ih =>
    have inside : m < n := by omega
    have first : ((List.range n).filter fun j =>
        j ∉ List.range m ∧ allowed (List.range m) j).head? = some m := by
      rw [List.head?_filter, List.find?_range_eq_some]
      refine ⟨by simp [allows m inside], List.mem_range.mpr inside, fun j before => ?_⟩
      simp [before]
    obtain ⟨rest, split⟩ := List.head?_eq_some_iff.mp first
    rw [arrangements, split, List.flatMap_cons, List.head?_append, ← List.range_succ,
      ih (by omega), Option.some_or]

namespace Sketch

theorem consistent_range (k : Sketch) (j : Nat) : k.Consistent (List.range j) j := by
  refine ⟨by rw [List.length_range], fun i _ => ?_⟩
  rw [List.length_range, Arrangement.apply_range, List.isPerm_iff]

theorem head?_symmetries (k : Sketch) :
    k.symmetries.head? = some (List.range k.vertices.length) := by
  have first : k.vertexArrangements.head? = some (List.range k.vertices.length) :=
    head?_arrangements (fun j _ => decide_eq_true (k.consistent_range j)) (Nat.zero_add _)
  obtain ⟨rest, split⟩ := List.head?_eq_some_iff.mp first
  have admitted := (mem_symmetries.mp k.range_mem_symmetries).2
  rw [symmetries, split, List.filter_cons_of_pos (by simpa using admitted), List.head?_cons]

theorem isGroup_symmetries (k : Sketch) : IsGroup k.symmetries k.vertices.length where
  permutes _ := permutes_of_mem_symmetries
  nodup := k.nodup_symmetries
  identity := k.head?_symmetries
  next _ h _ h' := next_mem_symmetries h h'
  inverse sigma h := by
    obtain ⟨tau, mem, undone⟩ := exists_inverse h
    exact ⟨tau, mem, (permutes_of_mem_symmetries h).next_comm_of_eq_range
      (permutes_of_mem_symmetries mem) undone, undone⟩

/-- The symmetries of a rule are a group, the identity listed first and none twice, and two
embeddings have one key exactly if the group carries one to the other. -/
theorem canonicalKey_separates (k : Sketch) : IsGroup k.symmetries k.vertices.length ∧
    ∀ v w : List Nat, v.length = k.vertices.length → w.length = k.vertices.length →
      (canonicalKey k.symmetries v = canonicalKey k.symmetries w ↔
        ∃ sigma ∈ k.symmetries, w = permute sigma v) :=
  ⟨k.isGroup_symmetries, fun _ _ hv hw => eq_comm.trans (canonicalKey_eq_iff hw hv)⟩

open Samples in
/-- The far ends of two spokes may be exchanged, but not the hub with one of them. -/
theorem canonicalKey_separates_bridgeSpokes :
    ∃ rule k, (single bridgeSpokes).rule? ⟨0⟩ = some rule ∧
      k = Rule.sketch rule.vertices rule.edges rule.addedVertices rule.addedEdges ∧
      IsGroup k.symmetries 3 ∧ k.symmetries = [[0, 1, 2], [0, 2, 1]] ∧
      canonicalKey k.symmetries [4, 7, 5] = canonicalKey k.symmetries [4, 5, 7] ∧
      canonicalKey k.symmetries [4, 7, 5] ≠ canonicalKey k.symmetries [7, 4, 5] := by
  obtain ⟨rule, found, arity, listed⟩ : ∃ rule, (single bridgeSpokes).rule? ⟨0⟩ = some rule ∧
      rule.vertices.length = 3 ∧
      (Rule.sketch rule.vertices rule.edges rule.addedVertices rule.addedEdges).symmetries =
        [[0, 1, 2], [0, 2, 1]] := ⟨_, rfl, by decide +kernel, by decide +kernel⟩
  have order : (Rule.sketch rule.vertices rule.edges rule.addedVertices
      rule.addedEdges).vertices.length = 3 := by
    rw [Rule.sketch, List.length_map, arity]
  obtain ⟨group, keys⟩ := canonicalKey_separates
    (Rule.sketch rule.vertices rule.edges rule.addedVertices rule.addedEdges)
  rw [order] at group keys
  refine ⟨rule, _, found, rfl, group, listed, (keys _ _ rfl rfl).mpr ?_, fun same => ?_⟩
  · rw [listed]
    exact ⟨[0, 2, 1], by decide, by decide⟩
  · obtain ⟨sigma, mem, image⟩ := (keys _ _ rfl rfl).mp same
    rw [listed] at mem
    revert sigma
    decide

end Sketch

end GraphSplice.Symmetry
