import GraphSplice.Proofs.Dungeon.Extension

/-!
What every level has that grows from the initial one, and that a batch of applications of the rules
keeps it.
-/

namespace GraphSplice.Dungeon

open GraphSplice.Graph

variable {level : Host dungeon} {stats : DungeonStats} {batch : List (Resolved dungeon)}

/-- The entrance comes first and the final room second; all others are rooms of the one size, all
doorways can be walked through, the rooms hang together as on a floor plan, and the counts are
right. -/
structure Planned (level : Host dungeon) (stats : DungeonStats) : Prop where
  consistent : level.Consistent
  plan : IsFloorPlan level.order level.ends
  entrance : roomAt? level ⟨0⟩ = some ⟨.entrance, roomSize⟩
  final : roomAt? level ⟨1⟩ = some ⟨.final, roomSize⟩
  rooms : ∀ v, level.Contains v → v ≠ ⟨0⟩ → v ≠ ⟨1⟩ → roomAt? level v = some ⟨.room, roomSize⟩
  physical : ∀ e record, level.edge? e = some record → record.payload = ⟨true⟩
  order : level.order = 2 + stats.roomsCreated
  size : level.size + stats.doorwaysRemoved = 1 + stats.doorwaysCreated

theorem isFloorPlan_initial : IsFloorPlan 2 [⟨⟨0⟩, ⟨1⟩⟩] where
  outset := Nat.le_refl 2
  inside := by
    simp only [List.forall_mem_singleton]
    rintro v (rfl | rfl) <;> decide
  loopless := by simp
  single u v := List.countP_le_length
  reached v hv := by
    rcases Nat.lt_succ_iff_lt_or_eq.mp hv with first | second
    · obtain rfl : v = ⟨0⟩ := Handle.ext_slot (Nat.lt_one_iff.mp first)
      exact .refl
    · obtain rfl : v = ⟨1⟩ := Handle.ext_slot second
      exact .single ⟨_, List.mem_singleton_self _, Ends.joins_self _⟩
  final := rfl

theorem planned_initial : Planned initial .zero where
  consistent := by
    have rooms : ((Graph.empty.addVertex ⟨.entrance, roomSize⟩).addVertex
        ⟨.final, roomSize⟩ : Host dungeon).Consistent :=
      (Consistent.empty.addVertexAt _ _).addVertexAt _ _
    have joined : Graph.addEdgeAt ((Graph.empty.addVertex ⟨.entrance, roomSize⟩).addVertex
        ⟨.final, roomSize⟩ : Host dungeon) ⟨0⟩ ⟨1⟩ 0 ⟨true⟩ = .ok initial := rfl
    exact rooms.addEdgeAt joined
  plan := isFloorPlan_initial
  entrance := rfl
  final := rfl
  rooms v contained first second := by
    have inside : v.slot < 2 := contained
    rcases Nat.lt_succ_iff_lt_or_eq.mp inside with zero | one
    · exact absurd (Handle.ext_slot (Nat.lt_one_iff.mp zero)) first
    · exact absurd (Handle.ext_slot one) second
  physical e record found := by
    have member : record ∈ initial.edges.toList :=
      Array.mem_toList_iff.mpr (Array.mem_of_getElem? found)
    have only : record = ⟨0, ⟨⟨0⟩, ⟨1⟩⟩, ⟨true⟩⟩ := List.mem_singleton.mp member
    rw [only]
  order := rfl
  size := rfl

/-- Where the doorways of a level were replaced and what is new furnished, there is a level
again. -/
theorem Planned.furnish (planned : Planned level stats) {d : Derivation dungeon}
    (replaces : Replaces level batch d) (consistent : d.graph.Consistent)
    (valid : ∀ r ∈ batch, r.Valid level) (extends' : ∀ r ∈ batch, Extends level r) :
    Planned (furnishDoorways (furnishRooms d.graph d.createdVertices) d.createdEdges)
      ⟨stats.roomsCreated + d.createdVertices.length, stats.doorwaysCreated + d.createdEdges.length,
        stats.doorwaysRemoved + (batch.flatMap Resolved.cutEdges).length⟩ := by
  have shape : SameShape d.graph
      (furnishDoorways (furnishRooms d.graph d.createdVertices) d.createdEdges) :=
    (sameShape_furnishRooms _ _).trans (sameShape_furnishDoorways _ _)
  have room (v : VertexId) :
      roomAt? (furnishDoorways (furnishRooms d.graph d.createdVertices) d.createdEdges) v =
        if v ∈ d.createdVertices then (d.graph.vertex? v).map fun _ => ⟨.room, roomSize⟩
        else roomAt? d.graph v := by
    rw [roomAt?_furnishDoorways, roomAt?_furnishRooms]
  have old {v : VertexId} (contained : level.Contains v) :
      roomAt? (furnishDoorways (furnishRooms d.graph d.createdVertices) d.createdEdges) v =
        roomAt? level v := by
    have there : v ∉ d.createdVertices := fun created =>
      Nat.not_lt.mpr ((replaces.created v).mp created).1 contained
    rw [room, if_neg there, roomAt?, replaces.vertex v contained]
    rfl
  obtain ⟨rest, before, after⟩ := replaces.ends
  constructor
  case consistent =>
    exact consistent.of_sameShape shape
  case plan =>
    rw [shape.order, shape.ends_eq, replaces.order, after]
    exact floorPlan_of_batch batch extends' _ _ (Nat.le_refl _) (planned.plan.perm before)
  case entrance =>
    exact (old (Nat.lt_of_lt_of_le Nat.two_pos planned.plan.outset)).trans planned.entrance
  case final =>
    exact (old planned.plan.outset).trans planned.final
  case rooms =>
    intro v contained first second
    by_cases inside : level.Contains v
    · exact (old inside).trans (planned.rooms v inside first second)
    · have there : d.graph.Contains v := by
        unfold Graph.Contains at contained ⊢
        rwa [shape.order] at contained
      obtain ⟨record, found⟩ := Graph.contains_iff.mp there
      rw [room, if_pos ((replaces.created v).mpr ⟨Nat.le_of_not_lt inside, there⟩), found]
      rfl
  case physical =>
    intro e record found
    have payload := edge?_furnishDoorways d.createdEdges (furnishRooms d.graph d.createdVertices) e
    rw [found, edge?_furnishRooms] at payload
    split at payload
    · obtain ⟨_, -, same⟩ := Option.map_eq_some_iff.mp payload.symm
      exact same.symm
    · next uncreated =>
      obtain ⟨record', found', same⟩ := Option.map_eq_some_iff.mp payload.symm
      rcases replaces.payload e record' found' with created | ⟨e', old, there, payload'⟩
      · exact absurd created uncreated
      · exact same.symm.trans (payload'.trans (planned.physical e' old there))
  case order =>
    rw [shape.order, replaces.order, replaces.countVertices, planned.order, Nat.add_assoc]
  case size =>
    have sizes := planned.size
    have host := before.length_eq
    have result := congrArg List.length after
    rw [Graph.length_ends, List.length_append, length_flatMap_cutEnds valid] at host
    rw [Graph.length_ends, List.length_append, length_addedEndsFrom, ← replaces.countEdges] at result
    rw [shape.size]
    dsimp only
    omega

/-- Applications of the rules that keep apart are all carried out. -/
theorem Planned.derive {g : Grammar dungeon} (planned : Planned level stats) (grown : g.Grown)
    {applications : List Application} (resolved : g.resolveAll level applications = .ok batch)
    (separate : Separate level batch) (grows : ∀ r ∈ batch, Grows level r) :
    ∃ d, (g.derive level applications stats).result = .ok d ∧
      Planned d.graph (g.derive level applications stats).state ∧
      d.graph.order = level.order + addedOrder batch := by
  have tallies : ∀ r ∈ batch, Tallies r.rule := fun r hr => tallies_of_mem _ (grows r hr).rule
  have steady : ∀ v, ¬ CutsVertex batch v :=
    not_cutsVertex_of_kept fun r hr => kept_of_mem _ (grows r hr).rule
  obtain ⟨a, credits, consistent, replaces, result, state⟩ :=
    Grammar.exists_replacement grown planned.consistent resolved separate steady stats
  rw [tellAll_eq tallies, run_eq tallies credits (fun v hv => ((replaces.created v).mp hv).2)
    replaces.inside] at result state
  have planned' := planned.furnish replaces consistent separate.valid
    fun r hr => (grows r hr).extends planned.final
  rw [List.length_map, List.length_map] at planned'
  refine ⟨_, result, ?_, ?_⟩
  · rw [state]
    exact planned'
  · exact ((sameShape_furnishRooms _ _).trans (sameShape_furnishDoorways _ _)).order.trans
      replaces.order

end GraphSplice.Dungeon
