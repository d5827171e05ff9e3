import GraphSplice.Proofs.Rule.Symmetries
import GraphSplice.Proofs.Samples
import Mathlib.Data.Finset.Card
import Mathlib.Data.Sym.Sym2

/-!
Which symmetries are listed. A permutation of the matched vertices that maps a rule onto itself is
completed by permutations of the added vertices and of the matched edges. Of the latter only one is
tried, the one that keeps twin edges in their order, so a symmetry is missed exactly where the rule
is mapped onto itself only by exchanging twins. Without twins that serve as sockets none is missed.
-/

namespace GraphSplice.Symmetry

variable {k : Sketch} {sigma tau rho rho' : Arrangement}

/-! ## Each at most once -/

theorem nodup_arrangements (n : Nat) (allowed : Arrangement → Nat → Bool) (count : Nat)
    (start : Arrangement) : (arrangements n allowed count start).Nodup := by
  induction count generalizing start with
  | zero => exact List.nodup_singleton start
  | succ count ih =>
    refine List.nodup_flatMap.mpr ⟨fun j _ => ih (start ++ [j]), ?_⟩
    refine (List.nodup_range.filter _).imp fun {i j} distinct => ?_
    -- What continues with `i` and what continues with `j` differ in the place after `start`.
    intro a hi hj
    obtain ⟨rest, rfl, -⟩ := mem_arrangements.mp hi
    obtain ⟨rest', same, -⟩ := mem_arrangements.mp hj
    rw [List.append_assoc, List.append_assoc, List.append_cancel_left_eq] at same
    exact distinct (List.cons.inj same).1

theorem Sketch.nodup_symmetries (k : Sketch) : k.symmetries.Nodup :=
  (nodup_arrangements _ _ _ _).filter _

/-! ## Symmetries told without the search -/

/-- The image joins the images of two vertices where the edge joins these. -/
theorem EdgeSketch.MapsTo.joins_iff {n : Nat} {e f : EdgeSketch} (h : e.MapsTo sigma f)
    (permutes : sigma.Permutes n) {i j : Nat} :
    f.ends.Joins (sigma.apply i) (sigma.apply j) ↔ e.ends.Joins i j := by
  refine .trans ⟨?_, ?_⟩ (Ends.joins_map_iff permutes.apply_injective)
  · exact (Ends.Joins.symm (y := e.ends.map sigma.apply) h.2).trans
  · exact Ends.Joins.trans (y := e.ends.map sigma.apply) h.2

/-- An added edge up to the order of its ends. -/
def AddedSketch.loose (e : AddedSketch) : Tag × Sym2 (Endpoint × Option Nat) :=
  (e.tag, s(e.both.first, e.both.second))

theorem AddedSketch.loose_eq_iff {x y : AddedSketch} :
    x.loose = y.loose ↔ x.unordered = y.unordered := by
  rw [unordered_eq_iff, loose, loose, Prod.mk.injEq, Sym2.eq_iff]
  refine and_congr_right fun _ => ?_
  obtain ⟨a, b⟩ := x.both
  simp [Ends.Joins]

namespace Sketch

/-- The permutations of the matched vertices, the added vertices and the matched edges map the rule
onto itself: roles and tags are kept, a matched edge goes to one between the images of its ends, and
the added edges with their sockets go to themselves as a multiset. -/
structure MapsOnto (k : Sketch) (sigma tau rho : Arrangement) : Prop where
  vertices : sigma.Permutes k.vertices.length
  keeps : ∀ i < k.vertices.length, k.vertices[sigma.apply i]? = k.vertices[i]?
  edges : rho.Permutes k.edges.length
  mapsTo : ∀ (j : Nat) (e : EdgeSketch), k.edges[j]? = some e →
    ∃ f, k.edges[rho.apply j]? = some f ∧ e.MapsTo sigma f
  addedVertices : tau.Permutes k.addedVertices.length
  tags : ∀ i < k.addedVertices.length, k.addedVertices[tau.apply i]? = k.addedVertices[i]?
  addedEdges : (k.addedEdges.map fun e => (e.map sigma tau rho).loose).Perm
    (k.addedEdges.map (·.loose))

/-- The edges in these places join the same vertices and have the same role and tag. -/
def Twins (k : Sketch) (i j : Nat) : Prop :=
  ∃ e f, k.edges[i]? = some e ∧ k.edges[j]? = some f ∧ e.Parallel f

/-- Twins have their images in the order in which they are declared. -/
def KeepsTwins (k : Sketch) (rho : Arrangement) : Prop :=
  ∀ i j, i < j → k.Twins i j → rho.apply i < rho.apply j

/-- No added edge is spliced into a socket of an edge that has a twin. -/
def SparesTwins (k : Sketch) : Prop :=
  ∀ x ∈ k.addedEdges, ∀ side c, x.sockets.get side = some c → ∀ j, k.Twins c j → j = c

/-- Places whose edges have the same image are those of twins. -/
theorem twins_of_mapsTo {n i j : Nat} {e f g : EdgeSketch} (permutes : sigma.Permutes n)
    (hi : k.edges[i]? = some e) (hj : k.edges[j]? = some f) (maps : e.MapsTo sigma g)
    (maps' : f.MapsTo sigma g) : k.Twins i j :=
  ⟨e, f, hi, hj, maps.parallel permutes maps'⟩

namespace MapsOnto

/-- Between the images of two vertices there are the same edges as between the vertices. -/
theorem between (h : k.MapsOnto sigma tau rho) (i j : Nat) :
    (k.signatures i j).Perm (k.signatures (sigma.apply i) (sigma.apply j)) := by
  obtain ⟨images, perm, places⟩ := h.edges.exists_reordered
  have each : List.Forall₂ (fun e f => e.MapsTo sigma f) k.edges images := by
    refine forall₂_of_getElem? perm.length_eq.symm fun j e f found there => ?_
    obtain ⟨f', there', maps⟩ := h.mapsTo j e found
    cases (there.symm.trans (places j)).trans there'
    exact maps
  have signatures : k.signatures i j = (images.filter fun f =>
      f.ends.Joins (sigma.apply i) (sigma.apply j)).map fun f => (f.role, f.tag) := by
    refine map_filter_of_forall₂ each (fun e f maps => ?_) fun e f maps => ?_
    · exact decide_eq_decide.mpr (maps.joins_iff h.vertices).symm
    · exact Prod.ext maps.1.1.symm maps.1.2.symm
  rw [signatures]
  exact (perm.filter _).map _

/-- The first edges of the rule leave an image for the next one: it has as many twins as its image
has, and of its twins only some come before it. -/
theorem exists_free (h : k.MapsOnto sigma tau rho) {n : Nat} {e : EdgeSketch}
    (found : k.edges[n]? = some e) {chosen : List Nat} (length : chosen.length = n)
    (images : ∀ (i m : Nat), chosen[i]? = some m →
      ∃ e' f, k.edges[i]? = some e' ∧ k.edges[m]? = some f ∧ e'.MapsTo sigma f) :
    ∃ m, k.IsFree sigma chosen e m := by
  classical
  by_contra none
  let twins := (Finset.range k.edges.length).filter fun i => k.Twins n i
  have mem_twins {i : Nat} : i ∈ twins ↔ k.Twins n i := by
    rw [Finset.mem_filter, Finset.mem_range, and_iff_right_iff_imp]
    rintro ⟨-, f, -, there, -⟩
    exact (List.getElem?_eq_some_iff.mp there).1
  -- The image of a twin is taken, by another twin that comes before the edge.
  have taken : ∀ i ∈ twins, rho.apply i ∈ chosen ∧ chosen.idxOf (rho.apply i) ∈ twins.erase n := by
    intro i hi
    obtain ⟨e', f, here, there, parallel⟩ := mem_twins.mp hi
    cases found.symm.trans here
    obtain ⟨g, image, maps⟩ := h.mapsTo i f there
    have maps' := maps.of_parallel parallel
    have mem : rho.apply i ∈ chosen := by
      by_contra fresh
      exact none ⟨_, fresh, g, image, maps'⟩
    obtain ⟨e'', g', before, image', maps''⟩ := images _ _ (getElem?_idxOf mem)
    cases image.symm.trans image'
    refine ⟨mem, Finset.mem_erase.mpr ⟨?_, mem_twins.mpr ?_⟩⟩
    · exact (length ▸ List.idxOf_lt_length_of_mem mem).ne
    · exact twins_of_mapsTo h.vertices found before maps' maps''
  have fewer : twins.card ≤ (twins.erase n).card := by
    refine Finset.card_le_card_of_injOn _ (fun i hi => (taken i hi).2) fun i hi j _ same => ?_
    exact h.edges.apply_injective ((List.idxOf_inj (taken i hi).1).mp same)
  have self : n ∈ twins := mem_twins.mpr ⟨e, e, found, found, ⟨rfl, rfl⟩, e.ends.joins_self⟩
  exact absurd (Finset.card_erase_lt_of_mem self) (Nat.not_lt.mpr fewer)

theorem exists_edgeImage? (h : k.MapsOnto sigma tau rho) :
    ∃ rho', k.edgeImage? sigma = some rho' := by
  classical
  -- The images of the first edges, each the least that is free in its turn.
  have first : ∀ n ≤ k.edges.length, ∃ chosen : List Nat, chosen.length = n ∧
      ∀ (j : Nat) (e : EdgeSketch), j < n → k.edges[j]? = some e →
        ∃ m, chosen[j]? = some m ∧ k.IsFree sigma (chosen.take j) e m ∧
          ∀ i < m, ¬ k.IsFree sigma (chosen.take j) e i := by
    intro n
    induction n with
    | zero => exact fun _ => ⟨[], rfl, fun j e below => absurd below (Nat.not_lt_zero j)⟩
    | succ n ih =>
      intro inside
      obtain ⟨chosen, length, least⟩ := ih (Nat.le_of_succ_le inside)
      obtain ⟨e, found⟩ : ∃ e, k.edges[n]? = some e := ⟨_, List.getElem?_eq_getElem inside⟩
      have free := h.exists_free found length fun i m there => by
        have before : i < n := length ▸ (List.getElem?_eq_some_iff.mp there).1
        have here := List.getElem?_eq_getElem (l := k.edges) (Nat.lt_trans before inside)
        obtain ⟨m', there', ⟨-, f, image, maps⟩, -⟩ := least i _ before here
        cases there.symm.trans there'
        exact ⟨_, f, here, image, maps⟩
      refine ⟨chosen ++ [Nat.find free], by simp [length], fun j e' below here => ?_⟩
      rw [List.take_append_of_le_length (length ▸ Nat.le_of_lt_succ below)]
      rcases Nat.lt_succ_iff_lt_or_eq.mp below with before | rfl
      · obtain ⟨m, there, isLeast⟩ := least j e' before here
        exact ⟨m, by rw [List.getElem?_append_left (length ▸ before), there], isLeast⟩
      · cases found.symm.trans here
        subst length
        refine ⟨Nat.find free, List.getElem?_concat_length, ?_⟩
        rw [List.take_length]
        exact ⟨Nat.find_spec free, fun i => Nat.find_min free⟩
  obtain ⟨rho', length, least⟩ := first _ (Nat.le_refl _)
  refine ⟨rho', edgeImage?_eq_some_iff.mpr ⟨length, fun j e here => ?_⟩⟩
  exact least j e (List.getElem?_eq_some_iff.mp here).1 here

/-- Without twins among the sockets, the images of twins may be brought into order. -/
theorem exists_keepsTwins (h : k.MapsOnto sigma tau rho) (spares : k.SparesTwins) :
    ∃ rho', k.MapsOnto sigma tau rho' ∧ k.KeepsTwins rho' := by
  obtain ⟨rho', image⟩ := h.exists_edgeImage?
  have pairs := Pairs.of_edgeImage? image
  have socket : ∀ x ∈ k.addedEdges, ∀ side c, x.sockets.get side = some c →
      rho.apply c = rho'.apply c := by
    intro x hx side c spliced
    by_cases inside : c < k.edges.length
    · have here := List.getElem?_eq_getElem inside
      obtain ⟨f, there, maps⟩ := pairs.mapsTo c _ here
      obtain ⟨j, same⟩ := h.edges.exists_apply (rho'.apply c)
      have inside' : j < k.edges.length :=
        h.edges.apply_lt_iff.mp (same ▸ (List.getElem?_eq_some_iff.mp there).1)
      have here' := List.getElem?_eq_getElem inside'
      obtain ⟨f', there', maps'⟩ := h.mapsTo j _ here'
      rw [same] at there'
      cases there.symm.trans there'
      rw [← same, spares x hx side c spliced j (twins_of_mapsTo h.vertices here here' maps maps')]
    · have above := Nat.not_lt.mp inside
      rw [h.edges.apply_of_le above, pairs.permutes.apply_of_le above]
  have unchanged : ∀ x ∈ k.addedEdges, x.map sigma tau rho = x.map sigma tau rho' := by
    intro x hx
    have each (side : Side) : (x.sockets.get side).map rho.apply =
        (x.sockets.get side).map rho'.apply := by
      cases spliced : x.sockets.get side with
      | none => rfl
      | some c => exact congrArg some (socket x hx side c spliced)
    exact congrArg (AddedSketch.mk _ _) (congrArg₂ Ends.mk (each .first) (each .second))
  refine ⟨rho', { h with edges := pairs.permutes, mapsTo := pairs.mapsTo, addedEdges := ?_ }, ?_⟩
  · rw [← List.map_congr_left fun x hx => congrArg _ (unchanged x hx)]
    exact h.addedEdges
  · rintro i j before ⟨e, f, hi, hj, parallel⟩
    exact pairs.ordered i j e f before hi hj parallel

end MapsOnto

theorem mem_symmetries_iff_mapsOnto : sigma ∈ k.symmetries ↔
    ∃ tau rho, k.MapsOnto sigma tau rho ∧ k.KeepsTwins rho := by
  rw [mem_symmetries_iff]
  refine exists_congr fun tau => exists_congr fun rho => ⟨fun h => ⟨?_, ?_⟩, ?_⟩
  · refine ⟨h.permutes, fun i _ => h.vertices i, h.pairs.permutes, h.pairs.mapsTo,
      h.permutesAdded, fun i _ => h.tags i, ?_⟩
    exact perm_map_of_perm (fun _ _ same => AddedSketch.loose_eq_iff.mpr same)
      (carries_iff.mp h.carries)
  · rintro i j before ⟨e, f, hi, hj, parallel⟩
    exact h.pairs.ordered i j e f before hi hj parallel
  · rintro ⟨h, keeps⟩
    refine ⟨h.vertices, (forall_lt_iff_of_permutes h.vertices).mp h.keeps,
      fun i j _ _ _ => h.between i j, ⟨h.edges, h.mapsTo, fun i j e f before hi hj parallel => ?_⟩,
      h.addedVertices, (forall_lt_iff_of_permutes h.addedVertices).mp h.tags, carries_iff.mpr ?_⟩
    · exact keeps i j before ⟨e, f, hi, hj, parallel⟩
    · exact perm_map_of_perm (fun _ _ same => AddedSketch.loose_eq_iff.mp same) h.addedEdges

/-- Each symmetry is listed once. Listed are the permutations of the matched vertices that map the
rule onto itself with its twins in order; where no added edge is spliced into a twin, these are all
that map it onto itself. -/
theorem symmetries_exact (k : Sketch) : k.symmetries.Nodup ∧ ∀ sigma,
    (sigma ∈ k.symmetries ↔ ∃ tau rho, k.MapsOnto sigma tau rho ∧ k.KeepsTwins rho) ∧
    (k.SparesTwins → (sigma ∈ k.symmetries ↔ ∃ tau rho, k.MapsOnto sigma tau rho)) := by
  refine ⟨k.nodup_symmetries, fun sigma => ⟨mem_symmetries_iff_mapsOnto, fun spares => ?_⟩⟩
  rw [mem_symmetries_iff_mapsOnto]
  constructor
  · rintro ⟨tau, rho, h, -⟩
    exact ⟨tau, rho, h⟩
  · rintro ⟨tau, rho, h⟩
    obtain ⟨rho', h', keeps⟩ := h.exists_keepsTwins spares
    exact ⟨tau, rho', h', keeps⟩

open Samples in
/-- Turning an edge around turns the path that replaces it. -/
theorem symmetries_exact_splitEdge : ∃ rule k, (single splitEdge).rule? ⟨0⟩ = some rule ∧
    k = Rule.sketch rule.vertices rule.edges rule.addedVertices rule.addedEdges ∧
    k.SparesTwins ∧ [1, 0] ∈ k.symmetries ∧ ∃ tau rho, k.MapsOnto [1, 0] tau rho := by
  obtain ⟨rule, found, symmetric, alone⟩ : ∃ rule, (single splitEdge).rule? ⟨0⟩ = some rule ∧
      [1, 0] ∈
        (Rule.sketch rule.vertices rule.edges rule.addedVertices rule.addedEdges).symmetries ∧
      rule.edges.length = 1 := ⟨_, rfl, by decide +kernel, by decide +kernel⟩
  have spares : (Rule.sketch rule.vertices rule.edges rule.addedVertices
      rule.addedEdges).SparesTwins := by
    rintro x hx side c spliced j ⟨e, f, hc, hj, -⟩
    have below := (List.getElem?_eq_some_iff.mp hc).1
    have below' := (List.getElem?_eq_some_iff.mp hj).1
    rw [Rule.sketch, List.length_map, alone] at below below'
    omega
  exact ⟨rule, _, found, rfl, spares, symmetric,
    (((symmetries_exact _).2 _).2 spares).mp symmetric⟩

open Samples in
/-- Exchanging both vertices and both edges maps this rule onto itself, but the one image of the
edges that is tried keeps their order. -/
theorem not_mem_symmetries_crossOnce : ∃ rule k, (single crossOnce).rule? ⟨0⟩ = some rule ∧
    k = Rule.sketch rule.vertices rule.edges rule.addedVertices rule.addedEdges ∧
    rule.symmetries = k.symmetries ∧ k.MapsOnto [1, 0] [] [1, 0] ∧ [1, 0] ∉ k.symmetries := by
  refine ⟨_, _, rfl, rfl, rfl, ?_, by decide +kernel⟩
  constructor
  case vertices => exact .swap 0 1 []
  case keeps => decide +kernel
  case edges => exact .swap 0 1 []
  case mapsTo =>
    intro j e found
    match j, found with
    | 0, found | 1, found =>
      cases found
      exact ⟨_, rfl, by decide +kernel⟩
  case addedVertices => exact .refl _
  case tags => decide +kernel
  case addedEdges => decide +kernel

end Sketch

end GraphSplice.Symmetry
