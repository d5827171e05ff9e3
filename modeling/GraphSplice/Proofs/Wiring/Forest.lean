import GraphSplice.Proofs.Ascending
import GraphSplice.Proofs.Wiring.Sockets
import Mathlib.Logic.Relation

/-!
Merging the nodes. The forest sends every node to the lowest one that a chain of shared sockets
connects it to, and its classes are merged accordingly.
-/

namespace GraphSplice

namespace Least

/-- A map downwards, along the relation, that is constant on related things is least. -/
theorem of_eqvGen {S : Nat → Nat → Prop} {q : Nat → Nat}
    (related : ∀ j, Relation.EqvGen S j (q j)) (constant : ∀ j k, S j k → q j = q k)
    (le : ∀ j, q j ≤ j) : Least (Relation.EqvGen S) q where
  related := related
  least j k h := by
    have same : q j = q k := by
      induction h with
      | rel j k step => exact constant j k step
      | refl j => rfl
      | symm j k _ ih => exact ih.symm
      | trans j k l _ _ first second => exact first.trans second
    rw [same]
    exact le k

end Least

namespace Forest

variable {f : Forest}

/-- The position that the pointers lead to from `i`. -/
def root (f : Forest) (i : Nat) : Nat := if f.parent i = i then i else f.root (f.parent i)
termination_by i
decreasing_by
  have below := f.parent_le_self i
  omega

theorem root_of_top {i : Nat} (top : f.parent i = i) : f.root i = i := by
  rw [root, if_pos top]

@[simp]
theorem root_parent (i : Nat) : f.root (f.parent i) = f.root i := by
  by_cases top : f.parent i = i
  · rw [top]
  · conv => rhs; rw [root, if_neg top]

theorem root_le (f : Forest) (i : Nat) : f.root i ≤ i := by
  induction i using Nat.strongRecOn with
  | _ i ih =>
    by_cases top : f.parent i = i
    · exact Nat.le_of_eq (root_of_top top)
    · have below := f.parent_le_self i
      have further := ih (f.parent i) (by omega)
      rw [root_parent] at further
      omega

/-- A root points to itself. -/
theorem parent_root (i : Nat) : f.parent (f.root i) = f.root i := by
  induction i using Nat.strongRecOn with
  | _ i ih =>
    by_cases top : f.parent i = i
    · rw [root_of_top top, top]
    · have below := f.parent_le_self i
      rw [← root_parent]
      exact ih (f.parent i) (by omega)

theorem root_root (i : Nat) : f.root (f.root i) = f.root i := root_of_top (parent_root i)

theorem parent_of_size_le {i : Nat} (h : f.parents.size ≤ i) : f.parent i = i := by
  rw [parent, Array.getElem?_eq_none h, Option.getD_none]

theorem root_of_size_le {i : Nat} (h : f.parents.size ≤ i) : f.root i = i :=
  root_of_top (parent_of_size_le h)

theorem root_lt {i : Nat} (h : i < f.parents.size) : f.root i < f.parents.size :=
  Nat.lt_of_le_of_lt (f.root_le i) h

/-- What is constant along the pointers and leaves their ends in place sends each position to its
root. -/
theorem root_unique {r : Nat → Nat} (constant : ∀ i, r (f.parent i) = r i)
    (tops : ∀ i, f.parent i = i → r i = i) (i : Nat) : f.root i = r i := by
  induction i using Nat.strongRecOn with
  | _ i ih =>
    by_cases top : f.parent i = i
    · rw [root_of_top top, tops i top]
    · have below := f.parent_le_self i
      rw [← root_parent, ih (f.parent i) (by omega), constant]

/-! ## Pointing further down -/

section Link

variable {low high : Nat} (h : low ≤ high)

theorem size_link : (f.link low high h).parents.size = f.parents.size := by
  simp [link]

theorem parent_link (inside : high < f.parents.size) (i : Nat) :
    (f.link low high h).parent i = if i = high then low else f.parent i := by
  unfold parent
  simp only [link, Array.getElem?_setIfInBounds]
  by_cases same : i = high
  · subst same
    simp [inside]
  · simp [same, Ne.symm same]

/-- Pointing one root to another sends the set of the former to the latter. -/
theorem root_link (inside : high < f.parents.size) (lowRoot : f.root low = low)
    (highRoot : f.root high = high) (i : Nat) :
    (f.link low high h).root i = if f.root i = high then low else f.root i := by
  refine root_unique (r := fun i => if f.root i = high then low else f.root i) ?_ ?_ i
  · intro i
    rw [parent_link h inside]
    by_cases same : i = high
    · rw [if_pos same, same, if_pos highRoot, lowRoot]
      split <;> rfl
    · rw [if_neg same, root_parent]
  · intro i top
    rw [parent_link h inside] at top
    by_cases same : i = high
    · rw [if_pos same] at top
      rw [same, if_pos highRoot, top, same]
    · rw [if_neg same] at top
      rw [root_of_top top, if_neg same]

/-- Pointing further down within a set leaves all roots. -/
theorem root_link_within (less : low < high) (inside : high < f.parents.size)
    (within : f.root low = f.root high) (i : Nat) : (f.link low high h).root i = f.root i := by
  refine root_unique ?_ ?_ i
  · intro i
    rw [parent_link h inside]
    split
    · next same => rw [same, within]
    · exact root_parent i
  · intro i top
    rw [parent_link h inside] at top
    split at top
    · omega
    · exact root_of_top top

end Link

/-- Searching finds the root. It shortens the ways, but leaves all sets as they are. -/
theorem find_spec (f : Forest) (i : Nat) :
    (f.find i).1 = f.root i ∧ (f.find i).2.parents.size = f.parents.size ∧
      ∀ j, (f.find i).2.root j = f.root j := by
  induction f, i using find.induct with
  | case1 f i top =>
    rw [find, if_pos top]
    exact ⟨(root_of_top top).symm, rfl, fun _ => rfl⟩
  | case2 f i moved above ih =>
    have inside : i < f.parents.size := by
      by_contra outside
      exact moved (parent_of_size_le (Nat.not_lt.mp outside))
    have less : above < i := by
      have first := f.parent_le_self i
      have second := f.parent_le_self (f.parent i)
      omega
    have within : f.root above = f.root i := by rw [root_parent, root_parent]
    have kept := root_link_within (Nat.le_of_lt less) less inside within
    obtain ⟨found, size, roots⟩ := ih
    rw [find, if_neg moved]
    refine ⟨?_, size.trans (size_link _), fun j => (roots j).trans (kept j)⟩
    rw [found, kept, within]

/-- Two positions are in one set: following the pointers from them, up and down, connects them. -/
def Same (f : Forest) : Nat → Nat → Prop := Relation.EqvGen fun i j => f.parent i = j

theorem least_root (f : Forest) : Least f.Same f.root := by
  refine .of_eqvGen ?_ ?_ f.root_le
  · intro i
    induction i using Nat.strongRecOn with
    | _ i ih =>
      by_cases top : f.parent i = i
      · rw [root_of_top top]
        exact .refl i
      · have below := f.parent_le_self i
        have further := ih (f.parent i) (by omega)
        rw [root_parent] at further
        exact .trans _ _ _ (.rel _ _ rfl) further
  · rintro i j rfl
    exact (root_parent i).symm

theorem same_iff {i j : Nat} : f.Same i j ↔ f.root i = f.root j :=
  (f.least_root.eq_iff (Relation.EqvGen.is_equivalence _)).symm

/-! ## Joining -/

variable {a b : Nat}

theorem size_join (a b : Nat) : (f.join a b).parents.size = f.parents.size := by
  have size := ((f.find a).2.find_spec b).2.1.trans (f.find_spec a).2.1
  unfold join
  dsimp only
  split
  · rw [size_link, size]
  · split
    · rw [size_link, size]
    · exact size

theorem root_join (ha : a < f.parents.size) (hb : b < f.parents.size) (i : Nat) :
    (f.join a b).root i =
      if f.root i = f.root a ∨ f.root i = f.root b then min (f.root a) (f.root b)
      else f.root i := by
  obtain ⟨first, size, roots⟩ := f.find_spec a
  obtain ⟨second, size', roots'⟩ := (f.find a).2.find_spec b
  have still (j : Nat) : ((f.find a).2.find b).2.root j = f.root j := (roots' j).trans (roots j)
  have sizes := size'.trans size
  rw [roots] at second
  have topA : ((f.find a).2.find b).2.root (f.find a).1 = (f.find a).1 := by
    rw [still, first, root_root]
  have topB : ((f.find a).2.find b).2.root ((f.find a).2.find b).1 = ((f.find a).2.find b).1 := by
    rw [still, second, root_root]
  have insideA : (f.find a).1 < ((f.find a).2.find b).2.parents.size := by
    rw [sizes, first]
    exact root_lt ha
  have insideB : ((f.find a).2.find b).1 < ((f.find a).2.find b).2.parents.size := by
    rw [sizes, second]
    exact root_lt hb
  unfold join
  dsimp only
  split
  · next less =>
    rw [root_link _ insideB topA topB, still, first, second]
    rw [first, second] at less
    split_ifs <;> omega
  · split
    · next less =>
      rw [root_link _ insideA topB topA, still, first, second]
      rw [first, second] at less
      split_ifs <;> omega
    · rw [still]
      rw [first, second] at *
      split_ifs <;> omega

theorem root_join_self (ha : a < f.parents.size) (hb : b < f.parents.size) :
    (f.join a b).root b = (f.join a b).root a := by
  rw [root_join ha hb, root_join ha hb, if_pos (.inr rfl), if_pos (.inl rfl)]

/-- What was in one set stays in one set. -/
theorem root_join_congr (ha : a < f.parents.size) (hb : b < f.parents.size) {i j : Nat}
    (same : f.root i = f.root j) : (f.join a b).root i = (f.join a b).root j := by
  rw [root_join ha hb, root_join ha hb, same]

/-- Sets stay within the classes of an equivalence. -/
theorem related_root_join {R : Nat → Nat → Prop} (equivalence : Equivalence R)
    (ha : a < f.parents.size) (hb : b < f.parents.size) (within : ∀ j, R j (f.root j))
    (related : R a b) (j : Nat) : R j ((f.join a b).root j) := by
  rw [root_join ha hb]
  have across : R (f.root a) (f.root b) :=
    equivalence.trans (equivalence.symm (within a)) (equivalence.trans related (within b))
  have here := within j
  split
  · next chosen =>
    rcases Nat.le_total (f.root a) (f.root b) with le | le
    · rw [Nat.min_eq_left le]
      rcases chosen with same | same
      · rwa [same] at here
      · rw [same] at here
        exact equivalence.trans here (equivalence.symm across)
    · rw [Nat.min_eq_right le]
      rcases chosen with same | same
      · rw [same] at here
        exact equivalence.trans here across
      · rwa [same] at here
  · exact here

/-- Joining one position with several others. -/
theorem joins_spec {R : Nat → Nat → Prop} (equivalence : Equivalence R) (others : List Nat) :
    ∀ f : Forest, a < f.parents.size → (∀ b ∈ others, b < f.parents.size ∧ R a b) →
      (∀ j, R j (f.root j)) →
      (others.foldl (fun f b => f.join a b) f).parents.size = f.parents.size ∧
        (∀ j, R j ((others.foldl (fun f b => f.join a b) f).root j)) ∧
        (∀ i j, f.root i = f.root j → (others.foldl (fun f b => f.join a b) f).root i =
          (others.foldl (fun f b => f.join a b) f).root j) ∧
        ∀ b ∈ others, (others.foldl (fun f b => f.join a b) f).root b =
          (others.foldl (fun f b => f.join a b) f).root a := by
  induction others with
  | nil =>
    intro f _ _ within
    exact ⟨rfl, within, fun _ _ same => same, by simp⟩
  | cons b rest ih =>
    intro f ha valid within
    obtain ⟨hb, related⟩ := valid b List.mem_cons_self
    obtain ⟨size, within', kept, joined⟩ := ih (f.join a b) (by rw [size_join]; exact ha)
      (fun c hc => by rw [size_join]; exact valid c (List.mem_cons_of_mem _ hc))
      (related_root_join equivalence ha hb within related)
    refine ⟨size.trans (size_join a b), within', ?_, ?_⟩
    · exact fun i j same => kept i j (root_join_congr ha hb same)
    · intro c hc
      rcases List.mem_cons.mp hc with rfl | hc
      · exact kept c a (root_join_self ha hb)
      · exact joined c hc

theorem root_singletons (n i : Nat) : (singletons n).root i = i := by
  refine root_of_top ?_
  unfold parent
  by_cases inside : i < n <;> simp [singletons, inside]

/-! ## Classes -/

theorem noteFolded_spec (xs : List Nat) (g : Forest) (noted : List (Nat × Nat))
    (roots : ∀ j, g.root j = f.root j) : (xs.foldl noteFolded (g, noted)).2 =
      (xs.filterMap fun i =>
        if f.root i = i then none else some (f.root i, i)).reverse ++ noted := by
  induction xs generalizing g noted with
  | nil => rfl
  | cons i rest ih =>
    obtain ⟨found, -, roots'⟩ := g.find_spec i
    rw [List.foldl_cons, noteFolded, ih _ _ fun j => (roots' j).trans (roots j), found, roots i,
      List.filterMap_cons]
    by_cases top : f.root i = i
    · rw [if_pos top, if_pos top]
    · rw [if_neg top, if_neg top, List.reverse_cons, List.append_assoc, List.singleton_append]

/-- The searches on the way shorten ways only, so each position is noted with its root. -/
theorem folded_eq (f : Forest) : f.folded = (List.range f.parents.size).filterMap fun i =>
    if f.root i = i then none else some (f.root i, i) := by
  rw [folded, noteFolded_spec (f := f) _ f [] fun _ => rfl, List.append_nil, List.reverse_reverse]

theorem mem_folded_iff {i r : Nat} : (r, i) ∈ f.folded ↔ r = f.root i ∧ r ≠ i := by
  simp only [folded_eq, List.mem_filterMap, List.mem_range]
  constructor
  · rintro ⟨j, -, h⟩
    split at h
    · cases h
    · next other =>
      cases h
      exact ⟨rfl, other⟩
  · rintro ⟨rfl, other⟩
    have inside : i < f.parents.size := by
      by_contra outside
      exact other (root_of_size_le (Nat.not_lt.mp outside))
    exact ⟨i, inside, by rw [if_neg other]⟩

theorem mem_classes_iff {c : Nat × List Nat} :
    c ∈ f.classes ↔
      (∃ i, f.root i = c.1 ∧ c.1 ≠ i) ∧ c.2 = (f.folded.filter (·.1 = c.1)).map (·.2) := by
  obtain ⟨r, members⟩ := c
  simp only [classes, List.mem_map, Ascending.mem_ofList, Prod.mk.injEq]
  constructor
  · rintro ⟨root, ⟨⟨r', i⟩, mem, rfl⟩, rfl, same⟩
    obtain ⟨rfl, other⟩ := mem_folded_iff.mp mem
    exact ⟨⟨i, rfl, other⟩, same.symm⟩
  · rintro ⟨⟨i, rfl, other⟩, same⟩
    exact ⟨f.root i, ⟨(f.root i, i), mem_folded_iff.mpr ⟨rfl, other⟩, rfl⟩, rfl, same.symm⟩

theorem mem_members_iff {c : Nat × List Nat} (hc : c ∈ f.classes) {i : Nat} :
    i ∈ c.2 ↔ f.root i = c.1 ∧ c.1 ≠ i := by
  rw [(mem_classes_iff.mp hc).2]
  simp only [List.mem_map, List.mem_filter, decide_eq_true_eq]
  constructor
  · rintro ⟨⟨r, j⟩, ⟨mem, rfl⟩, rfl⟩
    obtain ⟨top, other⟩ := mem_folded_iff.mp mem
    exact ⟨top.symm, other⟩
  · rintro ⟨same, other⟩
    exact ⟨(c.1, i), ⟨mem_folded_iff.mpr ⟨same.symm, other⟩, rfl⟩, rfl⟩

theorem exists_class {i : Nat} (moved : f.root i ≠ i) :
    ∃ members, (f.root i, members) ∈ f.classes ∧ i ∈ members := by
  have listed : (f.root i, (f.folded.filter (·.1 = f.root i)).map (·.2)) ∈ f.classes :=
    mem_classes_iff.mpr ⟨⟨i, rfl, moved⟩, rfl⟩
  exact ⟨_, listed, (mem_members_iff listed).mpr ⟨rfl, moved⟩⟩

theorem nodup_members {c : Nat × List Nat} (hc : c ∈ f.classes) : c.2.Nodup := by
  rw [(mem_classes_iff.mp hc).2]
  have positions : (f.folded.map (·.2)).Sublist (List.range f.parents.size) := by
    rw [folded_eq]
    generalize List.range f.parents.size = positions
    induction positions with
    | nil => exact .slnil
    | cons i rest ih =>
      rw [List.filterMap_cons]
      split
      · exact ih.cons i
      · next pair h =>
        split at h
        · cases h
        · cases h
          exact ih.cons_cons i
  exact ((List.Sublist.map _ List.filter_sublist).trans positions).nodup List.nodup_range

/-- Every member of a class, its representative included, has the representative as its root. -/
theorem root_of_inClass {c : Nat × List Nat} (hc : c ∈ f.classes) {i : Nat}
    (h : Wiring.InClass c.1 c.2 i) : f.root i = c.1 := by
  rcases h with rfl | mem
  · obtain ⟨⟨j, top, -⟩, -⟩ := mem_classes_iff.mp hc
    rw [← top]
    exact root_root j
  · exact ((mem_members_iff hc).mp mem).1

theorem disjoint_classes (f : Forest) : Wiring.DisjointClasses f.classes := by
  have ascending : (f.classes.map (·.1)).Pairwise (· < ·) := by
    unfold classes
    rw [List.map_map]
    have roots := Ascending.ofList_pairwise (f.folded.map (·.1))
    simpa [Function.comp_def] using roots
  rw [List.pairwise_map] at ascending
  refine ascending.imp_of_mem ?_
  intro c d hc hd less j inside inside'
  rw [← root_of_inClass hc inside, ← root_of_inClass hd inside'] at less
  exact Nat.lt_irrefl _ less

theorem gatherAll_classes (f : Forest) (j : Nat) : Wiring.gatherAll f.classes j = f.root j := by
  by_cases own : f.root j = j
  · rw [own]
    refine Wiring.gatherAll_eq_self ?_
    intro c hc mem
    obtain ⟨top, other⟩ := (mem_members_iff hc).mp mem
    exact other (top.symm.trans own)
  · obtain ⟨members, listed, mem⟩ := exists_class own
    exact Wiring.gatherAll_of_mem f.disjoint_classes listed mem

end Forest

end GraphSplice
