import GraphSplice.Proofs.Ascending
import GraphSplice.Proofs.Ends
import GraphSplice.Proofs.Except
import GraphSplice.Proofs.Rule.Arrangements
import Mathlib.Data.Fintype.EquivFin
import Mathlib.Data.List.Lex
import Mathlib.Logic.Function.Basic
import Mathlib.Order.Nat

/-!
The symmetries of a rule form a group. Each of them comes with the permutation of the matched edges
that it induces and with one of the added vertices, and these compose as the symmetries do. Hence
two embeddings have the same key exactly where they differ by a symmetry.
-/

namespace GraphSplice.Symmetry

variable {k : Sketch} {sigma tau rho sigma' tau' rho' : Arrangement}

/-! ## Added edges -/

theorem code_injective : Function.Injective code := by
  rintro ⟨x, s⟩ ⟨y, t⟩ same
  cases x <;> cases y <;> cases s <;> cases t <;> simp_all [code]

namespace AddedSketch

/-- The two ends with the sockets they are spliced into. -/
def both (e : AddedSketch) : Ends (Endpoint × Option Nat) := e.ends.zip e.sockets

theorem unordered_eq (e : AddedSketch) : e.unordered =
    (e.tag, if code e.both.second < code e.both.first then e.both.swap else e.both) := by
  simp only [unordered, Ascending.precedes_iff]
  rfl

/-- Added edges are alike up to the order of their ends. -/
theorem unordered_eq_iff {x y : AddedSketch} :
    x.unordered = y.unordered ↔
      x.tag = y.tag ∧ x.both.Joins y.both.first y.both.second := by
  rw [unordered_eq, unordered_eq, Prod.mk.injEq, and_congr_right_iff]
  intro _
  constructor
  · intro same
    split at same <;> split at same
    · exact .inl (congrArg Ends.swap same)
    · exact .inr (congrArg Ends.swap same)
    · exact .inr same
    · exact .inl same
  · rintro (same | same)
    · rw [same]
    · rw [same]
      simp only [Ends.swap]
      rcases lt_trichotomy (code y.both.first) (code y.both.second) with less | equal | more
      · rw [if_pos less, if_neg (lt_asymm less)]
      · rw [if_neg (equal ▸ lt_irrefl _), if_neg (equal ▸ lt_irrefl _)]
        have ends := code_injective equal
        exact congrArg₂ Ends.mk ends.symm ends
      · rw [if_neg (lt_asymm more), if_pos more]

theorem both_map (sigma tau rho : Arrangement) (e : AddedSketch) :
    (e.map sigma tau rho).both =
      e.both.map fun x => (Endpoint.map sigma tau x.1, x.2.map rho.apply) := rfl

theorem unordered_map {x y : AddedSketch} (same : x.unordered = y.unordered) :
    (x.map sigma tau rho).unordered = (y.map sigma tau rho).unordered := by
  obtain ⟨tags, joins⟩ := unordered_eq_iff.mp same
  refine unordered_eq_iff.mpr ⟨tags, ?_⟩
  rw [both_map, both_map]
  exact joins.map _

theorem map_next {l m n : Nat} (vertices : sigma.Permutes l) (vertices' : sigma'.Permutes l)
    (added : tau.Permutes m) (added' : tau'.Permutes m) (edges : rho.Permutes n)
    (edges' : rho'.Permutes n) (e : AddedSketch) :
    e.map (sigma.next sigma') (tau.next tau') (rho.next rho') =
      (e.map sigma tau rho).map sigma' tau' rho' := by
  have endpoint (x : Endpoint) : Endpoint.map (sigma.next sigma') (tau.next tau') x =
      Endpoint.map sigma' tau' (Endpoint.map sigma tau x) := by
    cases x with
    | matched i => exact congrArg _ (vertices.apply_next vertices' i)
    | created i => exact congrArg _ (added.apply_next added' i)
  have socket (x : Option Nat) : x.map (rho.next rho').apply =
      (x.map rho.apply).map rho'.apply := by
    rw [Option.map_map]
    exact congrArg (Option.map · x) (funext (edges.apply_next edges'))
  simp only [map, Ends.map, endpoint, socket]

theorem map_range (l m n : Nat) (e : AddedSketch) :
    e.map (List.range l) (List.range m) (List.range n) = e := by
  have endpoint (x : Endpoint) : Endpoint.map (List.range l) (List.range m) x = x := by
    cases x <;> simp [Endpoint.map]
  have socket (x : Option Nat) : x.map (Arrangement.apply (List.range n)) = x := by
    cases x <;> simp
  simp only [map, Ends.map, endpoint, socket]

end AddedSketch

/-! ## Matched edges -/

namespace EdgeSketch

variable {n : Nat} {e e' f f' : EdgeSketch}

/-- The edges are of one kind and join the same vertices. -/
def Parallel (e f : EdgeSketch) : Prop :=
  f.Resembles e ∧ f.ends.Joins e.ends.first e.ends.second

theorem MapsTo.of_parallel (parallel : e.Parallel f) (h : f.MapsTo sigma e') :
    e.MapsTo sigma e' := by
  obtain ⟨⟨role, tag⟩, joins⟩ := parallel
  exact ⟨⟨h.1.1.trans role, h.1.2.trans tag⟩,
    Ends.Joins.trans (y := f.ends.map sigma.apply) h.2 (joins.map sigma.apply)⟩

/-- What is mapped to one edge is parallel. -/
theorem MapsTo.parallel (permutes : sigma.Permutes n) (h : e.MapsTo sigma e')
    (h' : f.MapsTo sigma e') : e.Parallel f := by
  refine ⟨⟨h'.1.1.symm.trans h.1.1, h'.1.2.symm.trans h.1.2⟩, ?_⟩
  rcases h.2.unique h'.2 with ⟨first, second⟩ | ⟨first, second⟩
  · exact .inl (congrArg₂ Ends.mk (permutes.apply_injective first) (permutes.apply_injective second))
  · exact .inr (congrArg₂ Ends.mk (permutes.apply_injective first) (permutes.apply_injective second))

theorem MapsTo.parallel_images (h : e.MapsTo sigma e') (h' : f.MapsTo sigma f')
    (parallel : e.Parallel f) : e'.Parallel f' := by
  obtain ⟨⟨role, tag⟩, joins⟩ := MapsTo.of_parallel parallel h'
  exact ⟨⟨role.trans h.1.1.symm, tag.trans h.1.2.symm⟩,
    Ends.Joins.trans (y := e.ends.map sigma.apply) joins (Ends.Joins.symm h.2)⟩

theorem MapsTo.next (permutes : sigma.Permutes n) (permutes' : sigma'.Permutes n)
    (h : e.MapsTo sigma e') (h' : e'.MapsTo sigma' f) : e.MapsTo (sigma.next sigma') f := by
  refine ⟨⟨h'.1.1.trans h.1.1, h'.1.2.trans h.1.2⟩, ?_⟩
  rw [permutes.apply_next permutes', permutes.apply_next permutes']
  exact Ends.Joins.trans (y := e'.ends.map sigma'.apply) h'.2 (h.2.map sigma'.apply)

end EdgeSketch

namespace Sketch

/-- `rho` takes every matched edge to one that joins the images of its ends, and keeps parallel
edges of one kind in their order. -/
structure Pairs (k : Sketch) (sigma rho : Arrangement) : Prop where
  permutes : rho.Permutes k.edges.length
  mapsTo : ∀ (j : Nat) (e : EdgeSketch), k.edges[j]? = some e →
    ∃ f, k.edges[rho.apply j]? = some f ∧ e.MapsTo sigma f
  ordered : ∀ (i j : Nat) (e f : EdgeSketch), i < j → k.edges[i]? = some e →
    k.edges[j]? = some f → e.Parallel f → rho.apply i < rho.apply j

/-- Whether the position `m` may be chosen as the image of `e` after the choices `chosen`. -/
def IsFree (k : Sketch) (sigma : Arrangement) (chosen : List Nat) (e : EdgeSketch) (m : Nat) : Prop :=
  m ∉ chosen ∧ ∃ f, k.edges[m]? = some f ∧ e.MapsTo sigma f

theorem find?_image_iff {chosen : List Nat} {e : EdgeSketch} {m : Nat} :
    ((k.edges.zipIdx.find? fun f => f.2 ∉ chosen ∧ e.MapsTo sigma f.1).map (·.2)) = some m ↔
      k.IsFree sigma chosen e m ∧ ∀ i < m, ¬ k.IsFree sigma chosen e i := by
  have free_iff (i : Nat) (inside : i < k.edges.length) :
      k.IsFree sigma chosen e i ↔ i ∉ chosen ∧ e.MapsTo sigma k.edges[i] := by
    simp [IsFree, List.getElem?_eq_getElem inside]
  simp only [Option.map_eq_some_iff, List.find?_eq_some_iff_getElem, List.length_zipIdx,
    List.getElem_zipIdx, Nat.zero_add]
  constructor
  · rintro ⟨_, ⟨fits, i, inside, rfl, none⟩, rfl⟩
    refine ⟨(free_iff i inside).mpr (by simpa using fits), ?_⟩
    intro j before free
    have fits' := (free_iff j (Nat.lt_trans before inside)).mp free
    have missed := none j before
    simp only [Bool.not_eq_true', decide_eq_false_iff_not] at missed
    exact missed fits'
  · rintro ⟨free, none⟩
    obtain ⟨-, f, found, -⟩ := id free
    obtain ⟨inside, -⟩ := List.getElem?_eq_some_iff.mp found
    refine ⟨_, ⟨by simpa using (free_iff m inside).mp free, m, inside, rfl, ?_⟩, rfl⟩
    intro j before
    have closed := (free_iff j (Nat.lt_trans before inside)).not.mp (none j before)
    simpa only [Bool.not_eq_true', decide_eq_false_iff_not] using closed

/-- Each edge has the least image that is free in its turn. -/
theorem edgeImage?_eq_some_iff : k.edgeImage? sigma = some rho ↔
    rho.length = k.edges.length ∧ ∀ (j : Nat) (e : EdgeSketch), k.edges[j]? = some e →
      ∃ m, rho[j]? = some m ∧ k.IsFree sigma (rho.take j) e m ∧
        ∀ i < m, ¬ k.IsFree sigma (rho.take j) e i := by
  have picks := @foldlM_choose_iff EdgeSketch Nat (fun images e =>
    ((k.edges.zipIdx.find? fun f => f.2 ∉ images ∧ e.MapsTo sigma f.1).map (·.2))) k.edges [] rho
  simp only [Option.map_map, List.nil_append, find?_image_iff, exists_eq_left'] at picks
  exact picks

namespace Pairs

theorem of_edgeImage? (h : k.edgeImage? sigma = some rho) : k.Pairs sigma rho := by
  obtain ⟨length, each⟩ := edgeImage?_eq_some_iff.mp h
  have at_position (j m : Nat) (found : rho[j]? = some m) :
      ∃ e, k.edges[j]? = some e ∧ k.IsFree sigma (rho.take j) e m ∧
        ∀ i < m, ¬ k.IsFree sigma (rho.take j) e i := by
    obtain ⟨inside, -⟩ := List.getElem?_eq_some_iff.mp found
    have there := List.getElem?_eq_getElem (length ▸ inside)
    obtain ⟨_, found', least⟩ := each j _ there
    cases found.symm.trans found'
    exact ⟨_, there, least⟩
  have nodup : rho.Nodup := nodup_iff_not_mem_take.mpr fun j m found =>
    (at_position j m found).elim fun _ h => h.2.1.1
  have permutes : rho.Permutes k.edges.length := by
    refine Arrangement.permutes_of_nodup nodup length fun m hm => ?_
    obtain ⟨j, found⟩ := List.mem_iff_getElem?.mp hm
    obtain ⟨_, -, ⟨-, f, there, -⟩, -⟩ := at_position j m found
    exact (List.getElem?_eq_some_iff.mp there).1
  have image (j : Nat) (e : EdgeSketch) (there : k.edges[j]? = some e) :
      k.IsFree sigma (rho.take j) e (rho.apply j) ∧
        ∀ i < rho.apply j, ¬ k.IsFree sigma (rho.take j) e i := by
    obtain ⟨m, found, least⟩ := each j e there
    have same := permutes.getElem? (List.getElem?_eq_some_iff.mp there).1
    cases found.symm.trans same
    exact least
  refine ⟨permutes, fun j e there => (image j e there).1.2, ?_⟩
  intro i j e f before hi hj parallel
  obtain ⟨⟨fresh, g, there, maps⟩, -⟩ := image j f hj
  -- The image of the later edge was free in the turn of the earlier one.
  have early : k.IsFree sigma (rho.take i) e (rho.apply j) := by
    refine ⟨fun taken => ?_, g, there, maps.of_parallel parallel⟩
    exact fresh ((List.take_subset_take_left rho before.le) taken)
  have atMost := Nat.not_lt.mp fun less => (image i e hi).2 _ less early
  refine lt_of_le_of_ne atMost fun same => before.ne ?_
  exact permutes.apply_injective same

theorem edgeImage? {n : Nat} (permutes : sigma.Permutes n) (h : k.Pairs sigma rho) :
    k.edgeImage? sigma = some rho := by
  refine edgeImage?_eq_some_iff.mpr ⟨h.permutes.length, ?_⟩
  intro j e there
  have inside := (List.getElem?_eq_some_iff.mp there).1
  obtain ⟨f, there', maps⟩ := h.mapsTo j e there
  have found := h.permutes.getElem? inside
  refine ⟨rho.apply j, found, ⟨?_, f, there', maps⟩, ?_⟩
  · exact nodup_iff_not_mem_take.mp h.permutes.nodup j _ found
  · rintro m below ⟨fresh, g, there'', maps'⟩
    -- An earlier image that is free belongs to a later edge, which is parallel.
    obtain ⟨i, rfl⟩ := h.permutes.exists_apply m
    have inside' : i < k.edges.length :=
      h.permutes.apply_lt_iff.mp (List.getElem?_eq_some_iff.mp there'').1
    obtain ⟨g', same, maps''⟩ := h.mapsTo i _ (List.getElem?_eq_getElem inside')
    cases there''.symm.trans same
    have later : j < i := by
      refine lt_of_le_of_ne (Nat.not_lt.mp fun before => fresh ?_) ?_
      · exact mem_take_iff.mpr ⟨i, before, h.permutes.getElem? inside'⟩
      · rintro rfl
        exact lt_irrefl _ below
    have parallel := maps'.parallel permutes maps''
    exact lt_asymm below (h.ordered j i e _ later there (List.getElem?_eq_getElem inside') parallel)

theorem next {n : Nat} (permutes : sigma.Permutes n) (permutes' : sigma'.Permutes n)
    (h : k.Pairs sigma rho) (h' : k.Pairs sigma' rho') :
    k.Pairs (sigma.next sigma') (rho.next rho') where
  permutes := h.permutes.next h'.permutes
  mapsTo j e there := by
    obtain ⟨f, found, maps⟩ := h.mapsTo j e there
    obtain ⟨g, found', maps'⟩ := h'.mapsTo _ f found
    rw [h.permutes.apply_next h'.permutes]
    exact ⟨g, found', maps.next permutes permutes' maps'⟩
  ordered i j e f before hi hj parallel := by
    obtain ⟨e', found, maps⟩ := h.mapsTo i e hi
    obtain ⟨f', found', maps'⟩ := h.mapsTo j f hj
    rw [h.permutes.apply_next h'.permutes, h.permutes.apply_next h'.permutes]
    exact h'.ordered _ _ e' f' (h.ordered i j e f before hi hj parallel) found found'
      (maps.parallel_images maps' parallel)

theorem range (k : Sketch) (n : Nat) : k.Pairs (List.range n) (List.range k.edges.length) where
  permutes := Arrangement.permutes_range _
  mapsTo j e there := by
    refine ⟨e, by rwa [Arrangement.apply_range], ⟨rfl, rfl⟩, ?_⟩
    rw [Arrangement.apply_range, Arrangement.apply_range]
    exact e.ends.joins_self
  ordered i j e f before _ _ _ := by
    rwa [Arrangement.apply_range, Arrangement.apply_range]

end Pairs

theorem carries_iff : k.Carries sigma tau rho ↔
    (k.addedEdges.map fun e => (e.map sigma tau rho).unordered).Perm
      (k.addedEdges.map (·.unordered)) := by
  rw [Carries, List.isPerm_iff, List.map_map]
  rfl

/-! ## The group -/

/-- A symmetry with the permutations of matched edges and added vertices that go with it. -/
structure Automorphism (k : Sketch) (sigma tau rho : Arrangement) : Prop where
  permutes : sigma.Permutes k.vertices.length
  vertices : ∀ i : Nat, k.vertices[sigma.apply i]? = k.vertices[i]?
  between : ∀ i j : Nat, i < k.vertices.length → j < k.vertices.length → i ≠ j →
    (k.signatures i j).Perm (k.signatures (sigma.apply i) (sigma.apply j))
  pairs : k.Pairs sigma rho
  permutesAdded : tau.Permutes k.addedVertices.length
  tags : ∀ i : Nat, k.addedVertices[tau.apply i]? = k.addedVertices[i]?
  carries : k.Carries sigma tau rho

theorem signatures_comm (k : Sketch) (a b : Nat) : k.signatures a b = k.signatures b a := by
  simp only [signatures, Ends.joins_comm]

theorem forall_lt_iff_of_permutes {α : Type} {xs : List α} (h : sigma.Permutes xs.length) :
    (∀ i < xs.length, xs[sigma.apply i]? = xs[i]?) ↔ ∀ i : Nat, xs[sigma.apply i]? = xs[i]? := by
  refine ⟨fun each i => ?_, fun each i _ => each i⟩
  by_cases below : i < xs.length
  · exact each i below
  · rw [h.apply_of_le (Nat.not_lt.mp below)]

theorem consistent_iff (permutes : sigma.Permutes k.vertices.length) {i : Nat}
    (below : i < k.vertices.length) : k.Consistent (sigma.take i) (sigma.apply i) ↔
      k.vertices[sigma.apply i]? = k.vertices[i]? ∧
        ∀ j < i, (k.signatures i j).Perm (k.signatures (sigma.apply i) (sigma.apply j)) := by
  simp only [Consistent, permutes.length_take below, List.mem_range, List.isPerm_iff]
  refine and_congr_right fun _ => forall₂_congr fun j before => ?_
  rw [permutes.apply_take below before]

theorem mem_vertexArrangements_iff : sigma ∈ k.vertexArrangements ↔
    sigma.Permutes k.vertices.length ∧ (∀ i : Nat, k.vertices[sigma.apply i]? = k.vertices[i]?) ∧
      ∀ i j : Nat, i < k.vertices.length → j < k.vertices.length → i ≠ j →
        (k.signatures i j).Perm (k.signatures (sigma.apply i) (sigma.apply j)) := by
  rw [vertexArrangements, Arrangement.mem_arrangements_iff, and_congr_right_iff]
  intro permutes
  rw [permutes.forall_getElem?_iff, ← forall_lt_iff_of_permutes permutes]
  simp only [decide_eq_true_eq]
  constructor
  · intro each
    refine ⟨fun i below => ((consistent_iff permutes below).mp (each i below)).1, ?_⟩
    intro i j below below' distinct
    rcases Nat.lt_or_gt_of_ne distinct with before | after
    · rw [k.signatures_comm, k.signatures_comm (sigma.apply i)]
      exact ((consistent_iff permutes below').mp (each j below')).2 i before
    · exact ((consistent_iff permutes below).mp (each i below)).2 j after
  · rintro ⟨same, between⟩ i below
    exact (consistent_iff permutes below).mpr ⟨same i below, fun j before =>
      between i j below (Nat.lt_trans before below) (Nat.ne_of_gt before)⟩

theorem mem_addedArrangements_iff : tau ∈ k.addedArrangements ↔
    tau.Permutes k.addedVertices.length ∧
      ∀ i : Nat, k.addedVertices[tau.apply i]? = k.addedVertices[i]? := by
  rw [addedArrangements, Arrangement.mem_arrangements_iff, and_congr_right_iff]
  intro permutes
  rw [permutes.forall_getElem?_iff, ← forall_lt_iff_of_permutes permutes]
  refine forall₂_congr fun i below => ?_
  rw [keepsTag, decide_eq_true_eq, permutes.length_take below]

theorem mem_symmetries_iff :
    sigma ∈ k.symmetries ↔ ∃ tau rho, k.Automorphism sigma tau rho := by
  rw [mem_symmetries, mem_vertexArrangements_iff, Admits]
  constructor
  · rintro ⟨⟨permutes, same, between⟩, admitted⟩
    split at admitted
    · exact admitted.elim
    · next rho image =>
      obtain ⟨tau, arranged, carries⟩ := admitted
      obtain ⟨permutesAdded, tags⟩ := mem_addedArrangements_iff.mp arranged
      exact ⟨tau, rho, permutes, same, between, .of_edgeImage? image, permutesAdded, tags, carries⟩
  · rintro ⟨tau, rho, h⟩
    refine ⟨⟨h.permutes, h.vertices, h.between⟩, ?_⟩
    rw [h.pairs.edgeImage? h.permutes]
    exact ⟨tau, mem_addedArrangements_iff.mpr ⟨h.permutesAdded, h.tags⟩, h.carries⟩

theorem Carries.next (vertices : sigma.Permutes k.vertices.length)
    (vertices' : sigma'.Permutes k.vertices.length) (edges : rho.Permutes k.edges.length)
    (edges' : rho'.Permutes k.edges.length) (added : tau.Permutes k.addedVertices.length)
    (added' : tau'.Permutes k.addedVertices.length) (h : k.Carries sigma tau rho)
    (h' : k.Carries sigma' tau' rho') :
    k.Carries (sigma.next sigma') (tau.next tau') (rho.next rho') := by
  rw [carries_iff] at h h' ⊢
  refine .trans (perm_map_of_perm (fun x y same => ?_) h) h'
  rw [x.map_next vertices vertices' added added' edges edges']
  exact AddedSketch.unordered_map same

namespace Automorphism

theorem next (h : k.Automorphism sigma tau rho) (h' : k.Automorphism sigma' tau' rho') :
    k.Automorphism (sigma.next sigma') (tau.next tau') (rho.next rho') where
  permutes := h.permutes.next h'.permutes
  vertices i := by rw [h.permutes.apply_next h'.permutes, h'.vertices, h.vertices]
  between i j below below' distinct := by
    rw [h.permutes.apply_next h'.permutes, h.permutes.apply_next h'.permutes]
    refine (h.between i j below below' distinct).trans (h'.between _ _ ?_ ?_ ?_)
    · exact h.permutes.apply_lt_iff.mpr below
    · exact h.permutes.apply_lt_iff.mpr below'
    · exact h.permutes.apply_injective.ne distinct
  pairs := h.pairs.next h.permutes h'.permutes h'.pairs
  permutesAdded := h.permutesAdded.next h'.permutesAdded
  tags i := by rw [h.permutesAdded.apply_next h'.permutesAdded, h'.tags, h.tags]
  carries := h.carries.next h.permutes h'.permutes h.pairs.permutes h'.pairs.permutes
    h.permutesAdded h'.permutesAdded h'.carries

theorem range (k : Sketch) : k.Automorphism (List.range k.vertices.length)
    (List.range k.addedVertices.length) (List.range k.edges.length) where
  permutes := Arrangement.permutes_range _
  vertices i := by rw [Arrangement.apply_range]
  between i j _ _ _ := by rw [Arrangement.apply_range, Arrangement.apply_range]
  pairs := .range k _
  permutesAdded := Arrangement.permutes_range _
  tags i := by rw [Arrangement.apply_range]
  carries := by
    rw [carries_iff]
    simp only [AddedSketch.map_range]
    exact .refl _

end Automorphism

theorem permutes_of_mem_symmetries (h : sigma ∈ k.symmetries) :
    sigma.Permutes k.vertices.length :=
  (mem_vertexArrangements_iff.mp (mem_symmetries.mp h).1).1

theorem range_mem_symmetries (k : Sketch) : List.range k.vertices.length ∈ k.symmetries :=
  mem_symmetries_iff.mpr ⟨_, _, .range k⟩

theorem next_mem_symmetries (h : sigma ∈ k.symmetries) (h' : sigma' ∈ k.symmetries) :
    sigma.next sigma' ∈ k.symmetries := by
  obtain ⟨tau, rho, automorphism⟩ := mem_symmetries_iff.mp h
  obtain ⟨tau', rho', automorphism'⟩ := mem_symmetries_iff.mp h'
  exact mem_symmetries_iff.mpr ⟨_, _, automorphism.next automorphism'⟩

/-- There are finitely many symmetries, so one of them undoes another. -/
theorem exists_inverse (h : sigma ∈ k.symmetries) :
    ∃ sigma' ∈ k.symmetries, sigma'.next sigma = List.range k.vertices.length := by
  have cancels : Function.Injective fun x : { x // x ∈ k.symmetries } =>
      (⟨x.1.next sigma, next_mem_symmetries x.2 h⟩ : { x // x ∈ k.symmetries }) := by
    rintro ⟨x, hx⟩ ⟨y, hy⟩ same
    have permutes := permutes_of_mem_symmetries h
    exact Subtype.ext (List.map_injective_iff.mpr permutes.apply_injective (Subtype.mk.inj same))
  obtain ⟨⟨sigma', mem⟩, undone⟩ :=
    Finite.surjective_of_injective cancels ⟨_, k.range_mem_symmetries⟩
  exact ⟨sigma', mem, Subtype.mk.inj undone⟩

end Sketch

/-! ## Keys -/

theorem least_mem {best : List Nat} {xs : List (List Nat)} : least best xs ∈ best :: xs := by
  induction xs generalizing best with
  | nil => exact List.mem_singleton_self best
  | cons x xs ih =>
    unfold least
    split
    · exact List.mem_cons_of_mem _ ih
    · rcases List.mem_cons.mp (@ih best) with same | later
      · rw [same]
        exact List.mem_cons_self
      · exact List.mem_cons_of_mem _ (List.mem_cons_of_mem _ later)

theorem least_le {best : List Nat} {xs : List (List Nat)} :
    ∀ x ∈ best :: xs, least best xs ≤ x := by
  induction xs generalizing best with
  | nil => exact fun x hx => (List.mem_singleton.mp hx).ge
  | cons x xs ih =>
    intro y hy
    unfold least
    split
    · next below =>
      rcases List.mem_cons.mp hy with rfl | later
      · exact (ih x List.mem_cons_self).trans (Ascending.precedes_iff.mp below).le
      · exact ih y later
    · next above =>
      have atMost := not_lt.mp (mt Ascending.precedes_iff.mpr above)
      rcases List.mem_cons.mp hy with rfl | later
      · exact ih y List.mem_cons_self
      · rcases List.mem_cons.mp later with rfl | later
        · exact (ih best List.mem_cons_self).trans atMost
        · exact ih y (List.mem_cons_of_mem _ later)

namespace Sketch

variable {v w : List Nat}

theorem canonicalKey_mem (k : Sketch) (v : List Nat) :
    ∃ sigma ∈ k.symmetries, canonicalKey k.symmetries v = permute sigma v := by
  have some := k.range_mem_symmetries
  unfold canonicalKey
  split
  · next none => exact absurd (List.map_eq_nil_iff.mp none) (List.ne_nil_of_mem some)
  · next first rest images =>
    have found := @least_mem first rest
    rw [← images] at found
    obtain ⟨sigma, mem, same⟩ := List.mem_map.mp found
    exact ⟨sigma, mem, same.symm⟩

theorem canonicalKey_le (h : sigma ∈ k.symmetries) (v : List Nat) :
    canonicalKey k.symmetries v ≤ permute sigma v := by
  have mem := List.mem_map_of_mem (f := (permute · v)) h
  unfold canonicalKey
  split
  · next none =>
    rw [none] at mem
    cases mem
  · next first rest images => exact least_le _ (images ▸ mem)

theorem canonicalKey_permute_le (h : sigma ∈ k.symmetries) (length : v.length = k.vertices.length) :
    canonicalKey k.symmetries v ≤ canonicalKey k.symmetries (permute sigma v) := by
  obtain ⟨tau, mem, same⟩ := k.canonicalKey_mem (permute sigma v)
  rw [same, ← permute_next (permutes_of_mem_symmetries mem) (permutes_of_mem_symmetries h) length]
  exact canonicalKey_le (next_mem_symmetries mem h) v

/-- Two embeddings have the same key exactly where they differ by a symmetry. -/
theorem canonicalKey_eq_iff (hv : v.length = k.vertices.length) (hw : w.length = k.vertices.length) :
    canonicalKey k.symmetries v = canonicalKey k.symmetries w ↔
      ∃ sigma ∈ k.symmetries, v = permute sigma w := by
  constructor
  · intro same
    obtain ⟨a, ha, first⟩ := k.canonicalKey_mem v
    obtain ⟨b, hb, second⟩ := k.canonicalKey_mem w
    obtain ⟨c, hc, undone⟩ := exists_inverse ha
    refine ⟨c.next b, next_mem_symmetries hc hb, ?_⟩
    have permutes := permutes_of_mem_symmetries hc
    calc
      v = permute (c.next a) v := by rw [undone, permute_range hv]
      _ = permute c (permute a v) := permute_next permutes (permutes_of_mem_symmetries ha) hv
      _ = permute c (permute b w) := by rw [← first, same, second]
      _ = permute (c.next b) w := (permute_next permutes (permutes_of_mem_symmetries hb) hw).symm
  · rintro ⟨sigma, h, rfl⟩
    obtain ⟨inverse, mem, undone⟩ := exists_inverse h
    have permutes := permutes_of_mem_symmetries h
    have back : permute inverse (permute sigma w) = w := by
      rw [← permute_next (permutes_of_mem_symmetries mem) permutes hw, undone, permute_range hw]
    refine le_antisymm ?_ (canonicalKey_permute_le h hw)
    have less := canonicalKey_permute_le mem hv
    rwa [back] at less

end Sketch

end GraphSplice.Symmetry
