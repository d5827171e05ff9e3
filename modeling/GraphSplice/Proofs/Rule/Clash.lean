import GraphSplice.Proofs.Rule.Overlay
import GraphSplice.Proofs.Samples

/-!
What the analysis of conflicts decides. A conflict is an overlay of a part of the victim on the
cutter in which something kept lies on something cut, with parallel edges assigned in order; that
they are matters only where the cutter keeps one of two parallel edges with equal tags and cuts the
other. Parts of at most two vertices are enough to find it.
-/

namespace GraphSplice

variable {D : Domain}

/-- Parallel edges with equal tags are all kept or all cut. -/
def Rule.ParallelAlike (r : Rule D) : Prop :=
  ∀ e ∈ r.edges, ∀ f ∈ r.edges, e.ends.Joins f.ends.first f.ends.second → e.tag = f.tag →
    e.fate.role = f.fate.role

instance (r : Rule D) : Decidable r.ParallelAlike :=
  inferInstanceAs (Decidable (∀ e ∈ _, ∀ f ∈ _, _ → _ → _))

namespace Rule

variable {victim cutter : Rule D} {place edgePlace : Nat → Nat}

theorem ParallelAlike.edgeRole?_eq {r : Rule D} (alike : r.ParallelAlike) {a b t u : Nat}
    (ht : t ∈ r.pattern.edgesBetween a b) (hu : u ∈ r.pattern.edgesBetween a b)
    (tag : r.edgeTag? t = r.edgeTag? u) : r.edgeRole? t = r.edgeRole? u := by
  obtain ⟨e, there, joins⟩ := mem_pattern_edgesBetween_iff.mp ht
  obtain ⟨f, there', joins'⟩ := mem_pattern_edgesBetween_iff.mp hu
  simp only [edgeTag?, edgeRole?, there, there', Option.map_some, Option.some.injEq] at tag ⊢
  exact alike e (List.mem_of_getElem? there) f (List.mem_of_getElem? there')
    (joins'.of_parallel f.ends.joins_self joins) tag

/-- The edges between two members of an overlay are assigned in some way. -/
theorem Overlay.assigns {part : Finset Nat} (h : victim.Overlay cutter part place edgePlace)
    {i j : Nat} (hi : i ∈ part) (hj : j ∈ part) :
    Search.Assigns (fun k t => victim.edgeTag? k = cutter.edgeTag? t)
      (cutter.pattern.edgesBetween (place i) (place j)) [] (victim.pattern.edgesBetween i j)
      ((victim.pattern.edgesBetween i j).map edgePlace) where
  each := by
    rw [List.forall₂_map_right_iff, List.forall₂_same]
    exact fun k hk => ⟨h.edge i hi j hj k hk, h.edgeTag i hi j hj k hk⟩
  nodup := (victim.pattern.nodup_edgesBetween i j).map_on fun k hk l hl =>
    h.edgeInjective i hi j hj k hk l hl
  free _ _ := List.not_mem_nil

/-- Without parallel edges that the cutter treats differently, the order does not matter. -/
theorem ParallelAlike.conflicts_of_overlay (alike : cutter.ParallelAlike)
    (victimPlain : victim.pattern.Plain) (cutterPlain : cutter.pattern.Plain) {part : Finset Nat}
    (overlay : victim.Overlay cutter part place edgePlace)
    (spoils : victim.Spoils cutter part place edgePlace) : victim.conflicts cutter = true := by
  rcases spoils with ⟨i, hi, kept, cut⟩ | ⟨i, hi, j, hj, k, hk, kept, cut⟩
  · exact conflicts_of_vertex victimPlain cutterPlain (overlay.vertexTag i hi) kept cut
  · obtain ⟨chosen, pairs⟩ :=
      (overlay.assigns hi hj).exists_first (cutter.pattern.edgesBetween_ascending _ _)
    obtain ⟨t, sent⟩ := pairs.toAssigns.exists_target hk
    obtain ⟨between, tag⟩ := (List.forall₂_iff_zip.mp pairs.each).2 sent
    -- The edge that `k` is sent to in order is parallel to the one it lies on in the overlay.
    have same : cutter.edgeRole? t = cutter.edgeRole? (edgePlace k) :=
      alike.edgeRole?_eq between (overlay.edge i hi j hj k hk)
        (tag.symm.trans (overlay.edgeTag i hi j hj k hk))
    exact conflicts_of_pairs victimPlain cutterPlain (overlay.vertexTag i hi)
      (overlay.vertexTag j hj) pairs sent kept (same.trans cut)

/-- The analysis finds the conflicts between two compiled rules that have an overlay with parallel
edges in order, and all there are if the cutter treats parallel edges alike. -/
theorem conflicts_exact (compiled : victim.Compiled) (compiled' : cutter.Compiled) :
    (victim.conflicts cutter = true ↔
      ∃ (part : Finset Nat) (place edgePlace : Nat → Nat), part.Nonempty ∧
        victim.Overlay cutter part place edgePlace ∧
        victim.AssignsInOrder cutter part place edgePlace ∧
        victim.Spoils cutter part place edgePlace) ∧
    (cutter.ParallelAlike → (victim.conflicts cutter = true ↔
      ∃ (part : Finset Nat) (place edgePlace : Nat → Nat), part.Nonempty ∧
        victim.Overlay cutter part place edgePlace ∧
        victim.Spoils cutter part place edgePlace)) := by
  have exact' := conflicts_iff_overlay compiled.wellFormed.plain compiled'.wellFormed.plain
  refine ⟨exact', fun alike => ⟨fun conflict => ?_, ?_⟩⟩
  · obtain ⟨part, place, edgePlace, nonempty, overlay, -, spoils⟩ := exact'.mp conflict
    exact ⟨part, place, edgePlace, nonempty, overlay, spoils⟩
  · rintro ⟨part, place, edgePlace, -, overlay, spoils⟩
    exact alike.conflicts_of_overlay compiled.wellFormed.plain compiled'.wellFormed.plain overlay
      spoils

open Samples in
/-- The second of two parallel edges is found as well as the first where both are cut. -/
theorem conflicts_exact_crossEdges : ∃ victim cutter : Rule .plain,
    (pair keepEdge crossEdges).rule? ⟨0⟩ = some victim ∧
    (pair keepEdge crossEdges).rule? ⟨1⟩ = some cutter ∧ cutter.ParallelAlike ∧
    victim.Overlay cutter {0, 1} (fun i => i) (fun _ => 1) ∧ victim.conflicts cutter = true := by
  have grown := grown_pair keepEdge crossEdges
  obtain ⟨victim, first, cutter, second, alike, overlay, spoils⟩ :
      ∃ victim, (pair keepEdge crossEdges).rule? ⟨0⟩ = some victim ∧
        ∃ cutter, (pair keepEdge crossEdges).rule? ⟨1⟩ = some cutter ∧ cutter.ParallelAlike ∧
          victim.Overlay cutter {0, 1} (fun i => i) (fun _ => 1) ∧
          victim.Spoils cutter {0, 1} (fun i => i) (fun _ => 1) :=
    ⟨_, rfl, _, rfl, by decide +kernel⟩
  refine ⟨victim, cutter, first, second, alike, overlay, ?_⟩
  have compiled := grown.compiled victim (Array.mem_of_getElem? first)
  have compiled' := grown.compiled cutter (Array.mem_of_getElem? second)
  exact ((conflicts_exact compiled compiled').2 alike).mpr
    ⟨{0, 1}, _, _, Finset.insert_nonempty 0 _, overlay, spoils⟩

open Samples in
/-- A kept edge may lie on the second of two parallel edges, the one that is cut. The analysis tries
only the first one, which is kept. -/
theorem overlay_without_conflict : ∃ victim cutter : Rule .plain,
    victim.Compiled ∧ cutter.Compiled ∧ victim.conflicts cutter = false ∧
    victim.Overlay cutter {0, 1} (fun i => i) (fun _ => 1) ∧
    victim.Spoils cutter {0, 1} (fun i => i) (fun _ => 1) := by
  have grown := grown_pair keepEdge thinDouble
  obtain ⟨victim, first, cutter, second, found⟩ :
      ∃ victim, (pair keepEdge thinDouble).rule? ⟨0⟩ = some victim ∧
        ∃ cutter, (pair keepEdge thinDouble).rule? ⟨1⟩ = some cutter ∧
          victim.conflicts cutter = false ∧
          victim.Overlay cutter {0, 1} (fun i => i) (fun _ => 1) ∧
          victim.Spoils cutter {0, 1} (fun i => i) (fun _ => 1) :=
    ⟨_, rfl, _, rfl, by decide +kernel⟩
  exact ⟨victim, cutter, grown.compiled victim (Array.mem_of_getElem? first),
    grown.compiled cutter (Array.mem_of_getElem? second), found⟩

/-! ## Small parts -/

variable {part : List Nat} {m : Embedding}

/-- Of a part that clashes, one or two vertices clash under the same maps. -/
theorem exists_small_part (sub : part.Sublist (List.range victim.vertices.length))
    (overlaps : victim.Overlaps cutter part m) (hit : victim.hits cutter part m = true) :
    ∃ place edgePlace, m = victim.embedding part place edgePlace ∧
      ∃ small : List Nat, small.Sublist part ∧ small ≠ [] ∧ small.length ≤ 2 ∧
        victim.Overlaps cutter small (victim.embedding small place edgePlace) ∧
        victim.hits cutter small (victim.embedding small place edgePlace) = true := by
  have nodup := List.nodup_range.sublist sub
  obtain ⟨place, edgePlace, rfl⟩ := exists_eq_embedding nodup overlaps
  refine ⟨place, edgePlace, rfl, ?_⟩
  have overlay := vertexOverlay_of_overlaps nodup (sublist_range_iff.mp sub).2 overlaps
  have inOrder := assignsInOrder_of_overlaps nodup overlaps
  obtain ⟨few, within, nonempty, card, spoils⟩ :=
    ((hits_embedding_iff nodup).mp hit).exists_small
  have nodup' := nodup.filter (· ∈ few)
  have same := toFinset_filter_mem within
  rw [← same] at within nonempty card spoils
  rw [List.toFinset_card_of_nodup nodup'] at card
  exact ⟨part.filter (· ∈ few), List.filter_sublist, (List.toFinset_nonempty_iff _).mp nonempty,
    card, overlaps_of_overlay nodup' (overlay.mono within) (inOrder.mono within),
    (hits_embedding_iff nodup').mpr spoils⟩

theorem conflicts_eq_conflictsWithin_two (victimPlain : victim.pattern.Plain)
    (cutterPlain : cutter.pattern.Plain) :
    victim.conflicts cutter = victim.conflictsWithin cutter 2 := by
  rw [← conflictsWithin_length, Bool.eq_iff_iff, conflictsWithin_iff victimPlain cutterPlain,
    conflictsWithin_iff victimPlain cutterPlain]
  constructor
  · rintro ⟨part, sub, -, -, m, overlaps, hit⟩
    obtain ⟨_, _, -, small, smaller, nonempty, few, found⟩ := exists_small_part sub overlaps hit
    exact ⟨small, smaller.trans sub, nonempty, few, _, found⟩
  · rintro ⟨part, sub, nonempty, -, found⟩
    have few := sub.length_le
    rw [List.length_range] at few
    exact ⟨part, sub, nonempty, few, found⟩

/-- The analysis needs no parts of more than two vertices: where a larger part clashes, one or two
of its vertices do so under the same maps. -/
theorem conflicts_of_small_parts (compiled : victim.Compiled) (compiled' : cutter.Compiled) :
    victim.conflicts cutter = victim.conflictsWithin cutter 2 ∧
    ∀ (part : List Nat) (m : Embedding), part.Sublist (List.range victim.vertices.length) →
      victim.Overlaps cutter part m → victim.hits cutter part m = true →
      ∃ place edgePlace, m = victim.embedding part place edgePlace ∧
        ∃ small : List Nat, small.Sublist part ∧ small ≠ [] ∧ small.length ≤ 2 ∧
          victim.Overlaps cutter small (victim.embedding small place edgePlace) ∧
          victim.hits cutter small (victim.embedding small place edgePlace) = true :=
  ⟨conflicts_eq_conflictsWithin_two compiled.wellFormed.plain compiled'.wellFormed.plain,
    fun _ _ => exists_small_part⟩

open Samples in
/-- Two spokes that are kept lie on two that are cut, and one or two of the three vertices show
it. -/
theorem conflicts_of_small_parts_spokes : ∃ victim cutter : Rule .plain,
    (pair keepSpokes bridgeSpokes).rule? ⟨0⟩ = some victim ∧
    (pair keepSpokes bridgeSpokes).rule? ⟨1⟩ = some cutter ∧
    victim.conflictsWithin cutter 2 = true ∧ ∃ (place edgePlace : Nat → Nat) (small : List Nat),
      victim.Overlaps cutter [0, 1, 2] (victim.embedding [0, 1, 2] place edgePlace) ∧
      small.Sublist [0, 1, 2] ∧ small ≠ [] ∧ small.length ≤ 2 ∧
      victim.hits cutter small (victim.embedding small place edgePlace) = true := by
  have grown := grown_pair keepSpokes bridgeSpokes
  obtain ⟨victim, first, cutter, second, conflict, sub, hit⟩ :
      ∃ victim, (pair keepSpokes bridgeSpokes).rule? ⟨0⟩ = some victim ∧
        ∃ cutter, (pair keepSpokes bridgeSpokes).rule? ⟨1⟩ = some cutter ∧
          victim.conflicts cutter = true ∧
          [0, 1, 2].Sublist (List.range victim.vertices.length) ∧
          victim.overlapHits cutter [0, 1, 2] = true :=
    ⟨_, rfl, _, rfl, by decide +kernel⟩
  have compiled := grown.compiled victim (Array.mem_of_getElem? first)
  have compiled' := grown.compiled cutter (Array.mem_of_getElem? second)
  obtain ⟨m, overlaps, hits⟩ := (overlapHits_iff compiled.wellFormed.plain
    compiled'.wellFormed.plain (by decide)).mp hit
  obtain ⟨same, shrink⟩ := conflicts_of_small_parts compiled compiled'
  obtain ⟨place, edgePlace, rfl, small, smaller, nonempty, few, -, clash⟩ :=
    shrink [0, 1, 2] m sub overlaps hits
  exact ⟨victim, cutter, first, second, same ▸ conflict, place, edgePlace, small, overlaps, smaller,
    nonempty, few, clash⟩

end Rule

end GraphSplice
