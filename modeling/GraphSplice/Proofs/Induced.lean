import GraphSplice.Proofs.Lists
import GraphSplice.Proofs.Target

/-!
Parts of a pattern. The edges of a part stand for the edges of the pattern between two members,
in order, pair by pair.
-/

namespace GraphSplice.Pattern

variable {p : Pattern} {part : List Nat}

theorem findIdx?_eq_some_iff_getElem? (nodup : part.Nodup) {a i : Nat} :
    part.findIdx? (· == a) = some i ↔ part[i]? = some a := by
  rw [List.findIdx?_eq_some_iff_getElem]
  constructor
  · rintro ⟨inside, same, -⟩
    rw [List.getElem?_eq_getElem inside, eq_of_beq same]
  · intro found
    obtain ⟨inside, rfl⟩ := List.getElem?_eq_some_iff.mp found
    refine ⟨inside, beq_self_eq_true _, fun j before same => ?_⟩
    exact absurd ((nodup.getElem_inj_iff).mp (eq_of_beq same)) (Nat.ne_of_lt before)

theorem localEnds_eq_some_iff (nodup : part.Nodup) {ends inner : Ends Nat} :
    localEnds part ends = some inner ↔
      part[inner.first]? = some ends.first ∧ part[inner.second]? = some ends.second := by
  rw [← findIdx?_eq_some_iff_getElem? nodup, ← findIdx?_eq_some_iff_getElem? nodup]
  unfold localEnds
  obtain ⟨i, j⟩ := inner
  cases part.findIdx? (· == ends.first) <;> cases part.findIdx? (· == ends.second) <;> simp

theorem localEnds_joins_iff (nodup : part.Nodup) {ends : Ends Nat} {i j a b : Nat}
    (hi : part[i]? = some a) (hj : part[j]? = some b) :
    (∃ inner, localEnds part ends = some inner ∧ inner.Joins i j) ↔ ends.Joins a b := by
  constructor
  · rintro ⟨inner, found, joins⟩
    obtain ⟨first, second⟩ := (localEnds_eq_some_iff nodup).mp found
    rcases joins with rfl | rfl
    · exact .inl (congrArg₂ Ends.mk (Option.some.inj (first.symm.trans hi))
        (Option.some.inj (second.symm.trans hj)))
    · exact .inr (congrArg₂ Ends.mk (Option.some.inj (first.symm.trans hj))
        (Option.some.inj (second.symm.trans hi)))
  · rintro (rfl | rfl)
    · exact ⟨⟨i, j⟩, (localEnds_eq_some_iff nodup).mpr ⟨hi, hj⟩, .inl rfl⟩
    · exact ⟨⟨j, i⟩, (localEnds_eq_some_iff nodup).mpr ⟨hj, hi⟩, .inr rfl⟩

theorem Plain.induced (plain : p.Plain) (nodup : part.Nodup) : (p.induced part).Plain := by
  intro inner h
  obtain ⟨⟨inner, k⟩, member, rfl⟩ := List.mem_map.mp h
  obtain ⟨⟨ends, k'⟩, numbered, moved⟩ := List.mem_filterMap.mp member
  obtain ⟨inner', found, same⟩ := Option.map_eq_some_iff.mp moved
  obtain ⟨rfl, rfl⟩ := Prod.mk.inj same
  obtain ⟨first, second⟩ := (localEnds_eq_some_iff nodup).mp found
  refine ⟨fun same => ?_, fun side => ?_⟩
  · change inner'.first = inner'.second at same
    rw [same, second] at first
    exact (plain ends (List.mem_of_getElem? (mem_numbered_iff.mp numbered))).1
      (Option.some.inj first).symm
  · cases side with
    | first => exact (List.getElem?_eq_some_iff.mp first).1
    | second => exact (List.getElem?_eq_some_iff.mp second).1

/-- The edges of the part between two members are those of the pattern, in order. -/
theorem map_edgesBetween_induced (nodup : part.Nodup) {i j a b : Nat} (hi : part[i]? = some a)
    (hj : part[j]? = some b) :
    ((p.induced part).edgesBetween i j).map ((p.inducedOrigins part)[·]?) =
      (p.edgesBetween a b).map some := by
  have inner : ((p.induced part).edgesBetween i j).map ((p.inducedOrigins part)[·]?) =
      (((p.inducedEdges part).filter fun x => x.1.Joins i j).map (·.2)).map some := by
    unfold edgesBetween numbered induced inducedOrigins
    generalize p.inducedEdges part = xs
    have zipped : (xs.map (·.1)).zipIdx = xs.zipIdx.map fun x => (x.1.1, x.2) := by
      rw [List.zipIdx_map]
      rfl
    rw [zipped, List.filter_map, List.map_map, List.map_map, List.map_map]
    have each : ∀ x ∈ xs.zipIdx, (xs.map (·.2))[x.2]? = some x.1.2 := by
      intro x hx
      rw [List.getElem?_map, List.mem_zipIdx_iff_getElem?.mp hx]
      rfl
    have filtered : xs.filter (fun x => decide (x.1.Joins i j)) =
        (xs.zipIdx.filter fun x => decide (x.1.1.Joins i j)).map (·.1) := by
      conv_lhs => rw [← List.zipIdx_map_fst 0 xs]
      rw [List.filter_map]
      rfl
    rw [filtered, List.map_map]
    exact List.map_congr_left fun x hx => each x (List.mem_of_mem_filter hx)
  rw [inner]
  congr 1
  unfold edgesBetween inducedEdges
  rw [List.filter_filterMap, List.map_filterMap, ← List.filterMap_eq_map, List.filterMap_filter]
  apply List.filterMap_congr
  intro x _
  by_cases joins : x.1.Joins a b
  · obtain ⟨inner, found, within⟩ := (localEnds_joins_iff nodup hi hj).mpr joins
    simp [found, within, joins]
  · cases found : localEnds part x.1 with
    | none => simp [joins]
    | some inner =>
      have apart : ¬ inner.Joins i j := fun within =>
        joins ((localEnds_joins_iff nodup hi hj).mp ⟨inner, found, within⟩)
      simp [joins, apart]

theorem getElem?_inducedOrigins {i j k : Nat} (h : k ∈ (p.induced part).edgesBetween i j) :
    (p.inducedOrigins part)[k]? = some ((p.inducedOrigins part).getD k 0) := by
  obtain ⟨e, found, -⟩ := mem_edgesBetween_iff.mp h
  have inside := (List.getElem?_eq_some_iff.mp found).1
  rw [← length_inducedOrigins] at inside
  rw [List.getD_eq_getElem?_getD, List.getElem?_eq_getElem inside, Option.getD_some]

theorem map_origin_edgesBetween (nodup : part.Nodup) {i j a b : Nat} (hi : part[i]? = some a)
    (hj : part[j]? = some b) :
    ((p.induced part).edgesBetween i j).map ((p.inducedOrigins part).getD · 0) =
      p.edgesBetween a b := by
  apply List.map_injective_iff.mpr (Option.some_injective _)
  rw [← map_edgesBetween_induced nodup hi hj, List.map_map]
  exact List.map_congr_left fun k hk => (getElem?_inducedOrigins hk).symm

end GraphSplice.Pattern
