import GraphSplice.Proofs.Blueprint.Assembly
import GraphSplice.Proofs.Blueprint.Structure
import GraphSplice.Proofs.Lists

/-!
The classes of nodes and the components of links of a blueprint: each class has one lead, at which
the vertex of its sockets is found, and the sides of a component are those of each of its links.
-/

namespace GraphSplice

namespace Blueprint

variable {N E : Type} {host : Graph N E} {b : Blueprint}

/-- Every socket of a link has its owner among the nodes, and what comes from the host is there. -/
structure Grounded (b : Blueprint) (host : Graph N E) : Prop where
  nodes : b.nodes.Nodup
  links : b.links.Nodup
  owner : ∀ s n, b.owner s = some n → n ∈ b.nodes
  ends : ∀ x ∈ b.links, ∀ side, (b.owner (x.ends.get side)).isSome = true
  hostNode : ∀ v, .host v ∈ b.nodes → host.Contains v
  hostLink : ∀ x ∈ b.links, ∀ e, x.origin = .host e → e.slot < host.size

/-! ## Classes of nodes -/

theorem mem_leads_iff {n : NodeOrigin} : n ∈ b.leads ↔ n ∈ b.nodes ∧ b.Leads n := by
  simp [leads]

theorem nodup_leads (grounded : b.Grounded host) : b.leads.Nodup := grounded.nodes.filter _

theorem exists_lead {n : NodeOrigin} (hn : n ∈ b.nodes) : ∃ m ∈ b.leads, b.Merged m n := by
  classical
  have some : ∃ i : Nat, ∃ m, b.nodes[i]? = some m ∧ b.Merged m n := by
    obtain ⟨i, hi⟩ := List.getElem?_of_mem hn
    exact ⟨i, n, hi, .refl n⟩
  obtain ⟨m, found, merged⟩ := Nat.find_spec some
  refine ⟨m, mem_leads_iff.mpr ⟨List.mem_of_getElem? found, ?_⟩, merged⟩
  intro k hk merged'
  have inside := List.idxOf_lt_length_of_mem hk
  have later : Nat.find some ≤ b.nodes.idxOf k := by
    apply Nat.find_min' some
    refine ⟨k, ?_, merged'.trans _ _ _ merged⟩
    rw [List.getElem?_eq_getElem inside, List.getElem_idxOf]
  refine Nat.le_trans ?_ later
  obtain ⟨within, same⟩ := List.getElem?_eq_some_iff.mp found
  rw [← same]
  by_contra above
  have absent := List.not_of_lt_findIdx (Nat.lt_of_not_le above)
  simp at absent

theorem lead_unique {m n : NodeOrigin} (hm : m ∈ b.leads) (hn : n ∈ b.leads)
    (merged : b.Merged m n) : m = n := by
  obtain ⟨inM, leadsM⟩ := mem_leads_iff.mp hm
  obtain ⟨inN, leadsN⟩ := mem_leads_iff.mp hn
  have first := leadsM n inN merged.symm
  have second := leadsN m inM merged
  exact (List.idxOf_inj inM).mp (Nat.le_antisymm first second)

/-- At the vertex of a socket stands the lead of its owner. -/
theorem lead_at_vertexAt {s : Socket} {n : NodeOrigin} (owns : b.owner s = some n)
    (hn : n ∈ b.nodes) : ∃ m, b.leads[(b.vertexAt s).slot]? = some m ∧ b.Merged m n := by
  classical
  obtain ⟨m, hm, merged⟩ := exists_lead hn
  have some : ∃ x ∈ b.leads, decide (∃ k, b.owner s = some k ∧ b.Merged x k) = true :=
    ⟨m, hm, by simpa [owns] using merged⟩
  have inside := List.findIdx_lt_length_of_exists some
  refine ⟨_, List.getElem?_eq_getElem inside, ?_⟩
  have found := List.findIdx_getElem (w := inside)
  simpa [owns] using found

theorem vertexAt_eq_iff (grounded : b.Grounded host) {s t : Socket} {m n : NodeOrigin}
    (hs : b.owner s = some m) (ht : b.owner t = some n) :
    b.vertexAt s = b.vertexAt t ↔ b.Merged m n := by
  obtain ⟨i, foundI, mergedI⟩ := lead_at_vertexAt hs (grounded.owner s m hs)
  obtain ⟨j, foundJ, mergedJ⟩ := lead_at_vertexAt ht (grounded.owner t n ht)
  constructor
  · intro same
    rw [same, foundJ] at foundI
    cases foundI
    exact mergedI.symm.trans _ _ _ mergedJ
  · intro merged
    have equal : i = j := lead_unique (List.mem_of_getElem? foundI) (List.mem_of_getElem? foundJ)
      ((mergedI.trans _ _ _ merged).trans _ _ _ mergedJ.symm)
    subst equal
    apply Handle.ext_slot
    obtain ⟨insideI, _⟩ := List.getElem?_eq_some_iff.mp foundI
    exact (List.getElem?_inj insideI (nodup_leads grounded)).mp (foundI.trans foundJ.symm)

/-! ## Components of links -/

theorem SameComponent.refl (x : Strand) : b.SameComponent x x := Connected.refl _

/-- The ends of two links of a component are side by side, in one order or the other. -/
theorem beside_of_sameComponent {x y : Strand} (hx : x ∈ b.links) (hy : y ∈ b.links)
    (same : b.SameComponent x y) :
    (b.Beside x.ends.first y.ends.first ∧ b.Beside x.ends.second y.ends.second) ∨
      (b.Beside x.ends.first y.ends.second ∧ b.Beside x.ends.second y.ends.first) := by
  have stepX : b.Linked x.ends.second x.ends.first := ⟨x, hx, .inr rfl⟩
  have stepY : b.Linked y.ends.first y.ends.second := ⟨y, hy, .inl rfl⟩
  obtain ⟨n, walk⟩ := same
  by_cases even : Even n
  · refine .inl ⟨⟨n, even, walk⟩, 1 + n + 1, ?_, ((Walk.single stepX).append walk).append
      (Walk.single stepY)⟩
    have two : 1 + n + 1 = n + 2 := by omega
    rw [two]
    exact even.add ⟨1, rfl⟩
  · refine .inr ⟨⟨n + 1, Nat.even_add_one.mpr even, walk.append (Walk.single stepY)⟩, 1 + n, ?_,
      (Walk.single stepX).append walk⟩
    rw [Nat.add_comm]
    exact Nat.even_add_one.mpr even

theorem vertexAt_eq_of_beside (grounded : b.Grounded host) (balanced : ¬ b.Odd) {s t : Socket}
    (hs : (b.owner s).isSome = true) (ht : (b.owner t).isSome = true) (beside : b.Beside s t) :
    b.vertexAt s = b.vertexAt t := by
  obtain ⟨m, hm⟩ := Option.isSome_iff_exists.mp hs
  obtain ⟨n, hn⟩ := Option.isSome_iff_exists.mp ht
  rw [vertexAt_eq_iff grounded hm hn]
  exact .rel _ _ ((meets_iff balanced).mpr ⟨s, t, hm, hn, beside⟩)

/-- All links of a component join the same two vertices. -/
theorem joins_of_sameComponent (grounded : b.Grounded host) (balanced : ¬ b.Odd) {x y : Strand}
    (hx : x ∈ b.links) (hy : y ∈ b.links) (same : b.SameComponent x y) :
    (b.vertexEnds y).Joins (b.vertexAt x.ends.first) (b.vertexAt x.ends.second) := by
  have ends := fun z hz side => grounded.ends z hz side
  rcases beside_of_sameComponent hx hy same with ⟨first, second⟩ | ⟨first, second⟩
  · left
    simp only [vertexEnds, Ends.map, Ends.mk.injEq]
    exact ⟨(vertexAt_eq_of_beside grounded balanced (ends x hx .first) (ends y hy .first) first).symm,
      (vertexAt_eq_of_beside grounded balanced (ends x hx .second) (ends y hy .second) second).symm⟩
  · right
    simp only [vertexEnds, Ends.map, Ends.mk.injEq]
    exact ⟨(vertexAt_eq_of_beside grounded balanced (ends x hx .second) (ends y hy .first) second).symm,
      (vertexAt_eq_of_beside grounded balanced (ends x hx .first) (ends y hy .second) first).symm⟩

end Blueprint

end GraphSplice
