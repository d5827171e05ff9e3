import GraphSplice.Proofs.Combination
import GraphSplice.Proofs.Induced
import GraphSplice.Proofs.Matching
import GraphSplice.Proofs.Search.Detection
import GraphSplice.Rule.Conflict

/-!
The analysis of conflicts. Two rules are in conflict exactly when a part of one embeds into the
other so that something kept falls on something cut. The search tries one assignment for the edges
between two vertices, the first one there is.
-/

namespace GraphSplice

open Search

namespace Rule

variable {D : Domain} {victim cutter : Rule D} {part : List Nat} {m : Embedding}

/-- Members and images of an overlap have equal tags. -/
def overlapTerms (victim cutter : Rule D) (part : List Nat) : Terms where
  exact := True
  vertex i t := part[i]?.bind victim.vertexTag? = cutter.vertexTag? t
  edge j t := (victim.pattern.inducedOrigins part)[j]?.bind victim.edgeTag? = cutter.edgeTag? t

/-- The part falls on the cutter in this way. -/
abbrev Overlaps (victim cutter : Rule D) (part : List Nat) (m : Embedding) : Prop :=
  Embeds (victim.overlapTerms cutter part) (victim.pattern.induced part) cutter.pattern.asTarget m

theorem keeps_overlapGuide (victim cutter : Rule D) (part : List Nat) :
    Keeps (victim.overlapGuide cutter part) (victim.overlapTerms cutter part) True
      fun _ => True where
  vertex i t := fun s _ => by simp [overlapGuide, overlapTerms, Tells]
  edge j t := fun s _ => by simp [overlapGuide, overlapTerms, Tells]

theorem overlapHits_iff (victimPlain : victim.pattern.Plain) (cutterPlain : cutter.pattern.Plain)
    (nodup : part.Nodup) : victim.overlapHits cutter part = true ↔
      ∃ m, victim.Overlaps cutter part m ∧ victim.hits cutter part m = true := by
  have visits : ∀ m, victim.Overlaps cutter part m →
      Ensures (fun _ => True) ((victim.overlapGuide cutter part).visit m)
        (· = .done ↔ victim.hits cutter part m = true) := by
    intro m _ s _
    by_cases hit : victim.hits cutter part m = true <;> simp [overlapGuide, hit]
  have found := ensures_run (T := victim.overlapTerms cutter part) trivial
    (victimPlain.induced nodup) cutterPlain.regular (keeps_overlapGuide victim cutter part) visits
    () trivial
  unfold overlapHits
  rw [decide_eq_true_eq]
  exact found.1

theorem hits_iff : victim.hits cutter part m = true ↔
    (∃ i a t : Nat, part[i]? = some a ∧ m.vertices[i]? = some t ∧
      victim.vertexRole? a = some .kept ∧ cutter.vertexRole? t = some .cut) ∨
    ∃ j k t : Nat, (victim.pattern.inducedOrigins part)[j]? = some k ∧ m.edges[j]? = some t ∧
      victim.edgeRole? k = some .kept ∧ cutter.edgeRole? t = some .cut := by
  unfold hits
  simp only [Bool.or_eq_true, List.any_eq_true, decide_eq_true_eq, Prod.exists]
  refine or_congr ?_ ?_
  all_goals
    simp only [List.mem_iff_getElem?, List.getElem?_zip_eq_some]
    constructor
    · rintro ⟨a, t, ⟨i, member, image⟩, kept, cut⟩
      exact ⟨i, a, t, member, image, kept, cut⟩
    · rintro ⟨i, a, t, member, image, kept, cut⟩
      exact ⟨a, t, ⟨i, member, image⟩, kept, cut⟩

theorem reliesOn_of_hits (h : victim.hits cutter part m = true) : victim.reliesOn part = true := by
  unfold reliesOn
  rw [Bool.or_eq_true, List.any_eq_true, List.any_eq_true]
  rcases hits_iff.mp h with ⟨i, a, -, member, -, kept, -⟩ | ⟨j, k, -, member, -, kept, -⟩
  · exact .inl ⟨a, List.mem_of_getElem? member, decide_eq_true kept⟩
  · exact .inr ⟨k, List.mem_of_getElem? member, decide_eq_true kept⟩

theorem cut_of_vertexRole? {r : Rule D} {i : Nat} (h : r.vertexRole? i = some .cut) :
    ∃ v, r.vertices[i]? = some v ∧ v.fate.isCut = true := by
  obtain ⟨v, found, role⟩ := Option.map_eq_some_iff.mp h
  exact ⟨v, found, Fate.isCut_iff.mpr role⟩

theorem cut_of_edgeRole? {r : Rule D} {k : Nat} (h : r.edgeRole? k = some .cut) :
    ∃ e, r.edges[k]? = some e ∧ e.fate.isCut = true := by
  obtain ⟨e, found, role⟩ := Option.map_eq_some_iff.mp h
  exact ⟨e, found, Fate.isCut_iff.mpr role⟩

theorem deletes_of_hits (h : victim.hits cutter part m = true) : cutter.deletes = true := by
  unfold deletes
  rw [Bool.or_eq_true, List.any_eq_true, List.any_eq_true]
  rcases hits_iff.mp h with ⟨-, -, t, -, -, -, cut⟩ | ⟨-, -, t, -, -, -, cut⟩
  · obtain ⟨v, found, isCut⟩ := cut_of_vertexRole? cut
    exact .inl ⟨v, List.mem_of_getElem? found, isCut⟩
  · obtain ⟨e, found, isCut⟩ := cut_of_edgeRole? cut
    exact .inr ⟨e, List.mem_of_getElem? found, isCut⟩

theorem visitUntil_seekSpoiled (victim cutter : Rule D) (parts : List (List Nat)) (found : Bool) :
    (visitUntil (victim.seekSpoiled cutter) parts found).2 =
      (found || parts.any fun part => victim.reliesOn part && victim.overlapHits cutter part) := by
  induction parts generalizing found with
  | nil => simp [visitUntil]
  | cons part rest ih =>
    unfold visitUntil seekSpoiled
    by_cases hit : (victim.reliesOn part && victim.overlapHits cutter part) = true
    · simp [hit]
    · rw [if_neg hit, List.any_cons, Bool.eq_false_iff.mpr hit, Bool.false_or]
      exact ih found

/-- The parts are enumerated in full until one is found. -/
theorem spoiled_eq_any (victim cutter : Rule D) (count : Nat) : victim.spoiled cutter count =
    (combinations count (List.range victim.vertices.length)).any fun part =>
      victim.reliesOn part && victim.overlapHits cutter part := by
  rw [spoiled, Combination.forEach_eq]
  exact (visitUntil_seekSpoiled victim cutter _ false).trans (Bool.false_or _)

/-- The analysis with only the parts of at most `bound` vertices. -/
def conflictsWithin (victim cutter : Rule D) (bound : Nat) : Bool :=
  (victim.deletes || cutter.deletes) && !cutter.vertices.isEmpty &&
    (List.range (min bound victim.vertices.length)).reverse.any fun k =>
      victim.spoiled cutter (k + 1)

theorem conflictsWithin_length (victim cutter : Rule D) :
    victim.conflictsWithin cutter victim.vertices.length = victim.conflicts cutter := by
  rw [conflictsWithin, Nat.min_self, conflicts]

/-- What the analysis of a pair of rules comes to. -/
theorem conflictsWithin_iff (victimPlain : victim.pattern.Plain)
    (cutterPlain : cutter.pattern.Plain) {bound : Nat} :
    victim.conflictsWithin cutter bound = true ↔
      ∃ part, part.Sublist (List.range victim.vertices.length) ∧ part ≠ [] ∧ part.length ≤ bound ∧
        ∃ m, victim.Overlaps cutter part m ∧ victim.hits cutter part m = true := by
  unfold conflictsWithin
  simp only [spoiled_eq_any, Bool.and_eq_true, List.any_eq_true, List.mem_reverse, List.mem_range,
    mem_combinations_iff, Nat.lt_min]
  constructor
  · rintro ⟨-, count, ⟨few, -⟩, part, ⟨sub, length⟩, -, hit⟩
    refine ⟨part, sub, List.ne_nil_of_length_eq_add_one length, length ▸ few, ?_⟩
    exact (overlapHits_iff victimPlain cutterPlain (List.nodup_range.sublist sub)).mp hit
  · rintro ⟨part, sub, nonempty, few, m, overlaps, hit⟩
    have positive := List.length_pos_iff.mpr nonempty
    have inside := sub.length_le
    rw [List.length_range] at inside
    have images : 0 < m.vertices.length := by
      rw [overlaps.arity]
      exact positive
    have room : cutter.vertices ≠ [] := by
      have below := overlaps.inside _ (List.getElem_mem images)
      exact List.ne_nil_of_length_pos (Nat.zero_lt_of_lt below)
    refine ⟨⟨Bool.or_eq_true_iff.mpr (.inr (deletes_of_hits hit)), by simpa using room⟩,
      part.length - 1, by omega, part, ⟨sub, by omega⟩, reliesOn_of_hits hit, ?_⟩
    exact (overlapHits_iff victimPlain cutterPlain (List.nodup_range.sublist sub)).mpr
      ⟨m, overlaps, hit⟩

end Rule

/-! ## Assignments -/

namespace Search

theorem assignsFirst_singleton {r E : Nat → Nat → Prop} {k t : Nat} (accepted : E k t) :
    AssignsFirst r E [t] [] [k] [t] := by
  refine ⟨⟨.cons ⟨List.mem_singleton_self t, accepted⟩ .nil, List.nodup_singleton t, nofun⟩, ?_⟩
  intro other assigned
  obtain ⟨t', rest, rfl, inside, -, -, more⟩ := Assigns.cons_iff.mp assigned
  obtain rfl := List.mem_singleton.mp inside
  exact .inl (congrArg _ (Assigns.nil_iff.mp more))

variable {E E' : Nat → Nat → Prop} {f : Nat → Nat} {targets taken edges chosen : List Nat}

theorem Assigns.map_iff (same : ∀ k ∈ edges, ∀ t, E' k t ↔ E (f k) t) :
    Assigns E' targets taken edges chosen ↔ Assigns E targets taken (edges.map f) chosen := by
  have each : List.Forall₂ (fun k t => t ∈ targets ∧ E' k t) edges chosen ↔
      List.Forall₂ (fun k t => t ∈ targets ∧ E k t) (edges.map f) chosen := by
    rw [List.forall₂_map_left_iff]
    induction edges generalizing chosen with
    | nil => simp
    | cons k rest ih =>
      cases chosen with
      | nil => simp
      | cons t others =>
        rw [List.forall₂_cons, List.forall₂_cons, same k List.mem_cons_self,
          ih fun k' hk' => same k' (List.mem_cons_of_mem k hk')]
  exact ⟨fun h => ⟨each.mp h.each, h.nodup, h.free⟩, fun h => ⟨each.mpr h.each, h.nodup, h.free⟩⟩

theorem AssignsFirst.map_iff {r : Nat → Nat → Prop} (same : ∀ k ∈ edges, ∀ t, E' k t ↔ E (f k) t) :
    AssignsFirst r E' targets taken edges chosen ↔
      AssignsFirst r E targets taken (edges.map f) chosen :=
  ⟨fun h => ⟨(Assigns.map_iff same).mp h.toAssigns, fun other assigned =>
      h.first other ((Assigns.map_iff same).mpr assigned)⟩,
    fun h => ⟨(Assigns.map_iff same).mpr h.toAssigns, fun other assigned =>
      h.first other ((Assigns.map_iff same).mp assigned)⟩⟩

/-- Of the assignments, if there are any, one is the first. -/
theorem Assigns.exists_first (ordered : targets.Pairwise (· < ·))
    (h : Assigns E targets taken edges chosen) :
    ∃ first, AssignsFirst (· < ·) E targets taken edges first := by
  classical
  -- The search for an assignment finds the first one if its test is exact.
  have tells : ∀ edge target, Ensures (fun _ : Unit => True)
      (fun s => (decide (E edge target), s)) (Tells True (E edge target)) :=
    fun _ _ _ _ => ⟨⟨of_decide_eq_true, fun _ => decide_eq_true⟩, trivial⟩
  obtain ⟨⟨found, missing⟩, -⟩ := ensures_assignEdges ordered taken edges tells () trivial
  cases result : (assignEdges (fun k t s => (decide (E k t), s)) targets edges taken ()).1 with
  | none => exact absurd h (missing result trivial chosen)
  | some first => exact ⟨first, (found first result).2 trivial⟩

end Search

namespace Rule

variable {D : Domain} {victim cutter : Rule D}

theorem lt_of_vertexRole? {r : Rule D} {i : Nat} {role : Role} (h : r.vertexRole? i = some role) :
    i < r.vertices.length := by
  obtain ⟨v, found, -⟩ := Option.map_eq_some_iff.mp h
  exact (List.getElem?_eq_some_iff.mp found).1

/-- The one assignment that the analysis tries for the edges between `i` and `j` of the victim and
those between `a` and `b` of the cutter. -/
def Pairs (victim cutter : Rule D) (i j a b : Nat) (chosen : List Nat) : Prop :=
  AssignsFirst (· < ·) (fun k t => victim.edgeTag? k = cutter.edgeTag? t)
    (cutter.pattern.edgesBetween a b) [] (victim.pattern.edgesBetween i j) chosen

theorem Pairs.swap {i j a b : Nat} {chosen : List Nat} (h : victim.Pairs cutter i j a b chosen) :
    victim.Pairs cutter j i b a chosen := by
  unfold Pairs at *
  rwa [Pattern.edgesBetween_comm, Pattern.edgesBetween_comm _ j i]

end Rule

end GraphSplice
