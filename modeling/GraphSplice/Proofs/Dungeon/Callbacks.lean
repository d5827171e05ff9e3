import GraphSplice.Dungeon
import GraphSplice.Proofs.Replacement

/-!
What the callbacks of the dungeon do over a whole batch: created vertices become rooms and created
edges doorways that can be walked through, and each creation and removal is counted once.
-/

namespace GraphSplice.Dungeon

open GraphSplice.Graph

variable {host g : Host dungeon} {batch : List (Resolved dungeon)}

/-! ## Furnishing -/

def furnishRooms (g : Host dungeon) (rooms : List VertexId) : Host dungeon :=
  rooms.foldl (fun g v => g.modifyVertex v fun _ => ⟨.room, roomSize⟩) g

def furnishDoorways (g : Host dungeon) (doorways : List EdgeId) : Host dungeon :=
  doorways.foldl (fun g e => g.modifyEdge e fun _ => ⟨true⟩) g

theorem sameShape_furnishRooms (rooms : List VertexId) (g : Host dungeon) :
    SameShape g (furnishRooms g rooms) := by
  induction rooms generalizing g with
  | nil => exact .refl g
  | cons v rest ih => exact (sameShape_modifyVertex g v _).trans (ih _)

theorem sameShape_furnishDoorways (doorways : List EdgeId) (g : Host dungeon) :
    SameShape g (furnishDoorways g doorways) := by
  induction doorways generalizing g with
  | nil => exact .refl g
  | cons e rest ih => exact (sameShape_modifyEdge g e _).trans (ih _)

theorem edge?_furnishRooms (rooms : List VertexId) (g : Host dungeon) (e : EdgeId) :
    (furnishRooms g rooms).edge? e = g.edge? e := by
  induction rooms generalizing g with
  | nil => rfl
  | cons v rest ih => exact ih _

theorem roomAt?_furnishDoorways (doorways : List EdgeId) (g : Host dungeon) (v : VertexId) :
    roomAt? (furnishDoorways g doorways) v = roomAt? g v := by
  induction doorways generalizing g with
  | nil => rfl
  | cons e rest ih => exact ih _

theorem roomAt?_furnishRooms (rooms : List VertexId) (g : Host dungeon) (v : VertexId) :
    roomAt? (furnishRooms g rooms) v =
      if v ∈ rooms then (g.vertex? v).map fun _ => ⟨.room, roomSize⟩ else roomAt? g v := by
  induction rooms generalizing g with
  | nil => rfl
  | cons u rest ih =>
    refine (ih _).trans ?_
    unfold roomAt?
    rw [vertex?_modifyVertex]
    by_cases here : v = u <;> by_cases later : v ∈ rest <;>
      simp [here, later, Option.map_map, Function.comp_def]

theorem edge?_furnishDoorways (doorways : List EdgeId) (g : Host dungeon) (e : EdgeId) :
    ((furnishDoorways g doorways).edge? e).map (·.payload) =
      if e ∈ doorways then (g.edge? e).map fun _ => ⟨true⟩ else (g.edge? e).map (·.payload) := by
  induction doorways generalizing g with
  | nil => rfl
  | cons d rest ih =>
    refine (ih _).trans ?_
    rw [edge?_modifyEdge]
    by_cases here : e = d <;> by_cases later : e ∈ rest <;>
      simp [here, later, Option.map_map, Function.comp_def]

/-! ## Rules that count -/

/-- The callbacks of the rule are those that count. -/
structure Tallies (r : Rule dungeon) : Prop where
  rooms : ∀ x ∈ r.addedVertices, x.creation = some createRoom
  doorways : ∀ x ∈ r.addedEdges, x.creation = some createDoorway
  cuts : ∀ x ∈ r.edges, ∀ removal, x.fate = .cut removal → removal = some countRemovedDoorway

section Creation

variable (tallies : ∀ r ∈ batch, Tallies r.rule)

include tallies

theorem createVertex_eq {p : Provenance} (credited : .created p ∈ (Blueprint.of host batch).nodes)
    {v : VertexId} (contained : g.Contains v) (s : DungeonStats) :
    Creation.createVertex host batch (g, s) (v, p) =
      (g.modifyVertex v fun _ => ⟨.room, roomSize⟩,
        { s with roomsCreated := s.roomsCreated + 1 }) := by
  rcases Blueprint.mem_nodes_iff.mp credited with ⟨_, same, -⟩ | ⟨a, r, k, hr, hk, same⟩
  · cases same
  · cases same
    have creation : (r.rule.addedVertices[k]?).bind (·.creation) = some createRoom := by
      rw [List.getElem?_eq_getElem hk]
      exact (tallies r (List.mem_of_getElem? hr)).rooms _ (List.getElem_mem hk)
    unfold Creation.createVertex
    simp only [hr, creation]
    exact if_pos contained

theorem createEdge_eq {p : Provenance}
    (credited : ∃ y ∈ (Blueprint.of host batch).links, y.origin = .created p) {e : EdgeId}
    (inside : e.slot < g.size) (s : DungeonStats) :
    Creation.createEdge host batch (g, s) (e, p) =
      (g.modifyEdge e fun _ => ⟨true⟩, { s with doorwaysCreated := s.doorwaysCreated + 1 }) := by
  obtain ⟨y, hy, origin⟩ := credited
  rcases Blueprint.mem_links_iff.mp hy with ⟨_, rfl, -⟩ | ⟨a, r, k, x, hr, hx, rfl⟩
  · cases origin
  · cases origin
    have creation : (r.rule.addedEdges[k]?).bind (·.creation) = some createDoorway := by
      rw [hx]
      exact (tallies r (List.mem_of_getElem? hr)).doorways x (List.mem_of_getElem? hx)
    unfold Creation.createEdge
    simp only [hr, creation]
    exact if_pos (Option.isSome_iff_exists.mpr (Graph.edge?_isSome_iff.mpr inside))

theorem createVertices_eq : ∀ (xs : List (VertexId × Provenance)) (g : Host dungeon)
    (s : DungeonStats), (∀ x ∈ xs, .created x.2 ∈ (Blueprint.of host batch).nodes) →
    (∀ x ∈ xs, g.Contains x.1) → xs.foldl (Creation.createVertex host batch) (g, s) =
      (furnishRooms g (xs.map (·.1)), { s with roomsCreated := s.roomsCreated + xs.length }) := by
  intro xs
  induction xs with
  | nil => exact fun _ _ _ _ => rfl
  | cons x rest ih =>
    intro g s credited contained
    have shape := sameShape_modifyVertex g x.1 fun _ => (⟨.room, roomSize⟩ : Room)
    rw [List.foldl_cons, createVertex_eq tallies (credited x List.mem_cons_self)
      (contained x List.mem_cons_self), ih]
    · simp only [furnishRooms, List.map_cons, List.foldl_cons, List.length_cons]
      rw [Nat.add_assoc, Nat.add_comm 1]
    · exact fun y hy => credited y (List.mem_cons_of_mem x hy)
    · intro y hy
      unfold Graph.Contains
      rw [shape.order]
      exact contained y (List.mem_cons_of_mem x hy)

theorem createEdges_eq : ∀ (xs : List (EdgeId × Provenance)) (g : Host dungeon)
    (s : DungeonStats), (∀ x ∈ xs, ∃ y ∈ (Blueprint.of host batch).links, y.origin = .created x.2) →
    (∀ x ∈ xs, x.1.slot < g.size) → xs.foldl (Creation.createEdge host batch) (g, s) =
      (furnishDoorways g (xs.map (·.1)),
        { s with doorwaysCreated := s.doorwaysCreated + xs.length }) := by
  intro xs
  induction xs with
  | nil => exact fun _ _ _ _ => rfl
  | cons x rest ih =>
    intro g s credited inside
    have shape := sameShape_modifyEdge g x.1 fun _ => (⟨true⟩ : Doorway)
    rw [List.foldl_cons, createEdge_eq tallies (credited x List.mem_cons_self)
      (inside x List.mem_cons_self), ih]
    · simp only [furnishDoorways, List.map_cons, List.foldl_cons, List.length_cons]
      rw [Nat.add_assoc, Nat.add_comm 1]
    · exact fun y hy => credited y (List.mem_cons_of_mem x hy)
    · intro y hy
      rw [shape.size]
      exact inside y (List.mem_cons_of_mem x hy)

/-- The creation callbacks furnish what was created and count it. -/
theorem run_eq {a : Assembly Room Doorway} (credits : (Blueprint.of host batch).Credits a)
    (contained : ∀ v ∈ a.createdVertices.map (·.1), a.graph.Contains v)
    (inside : ∀ e ∈ a.createdEdges.map (·.1), e.slot < a.graph.size) (s : DungeonStats) :
    Creation.run host batch a s =
      (furnishDoorways (furnishRooms a.graph (a.createdVertices.map (·.1)))
          (a.createdEdges.map (·.1)),
        { s with
          roomsCreated := s.roomsCreated + a.createdVertices.length
          doorwaysCreated := s.doorwaysCreated + a.createdEdges.length }) := by
  unfold Creation.run
  rw [createVertices_eq tallies _ _ _ credits.vertices
    fun x hx => contained x.1 (List.mem_map_of_mem hx), createEdges_eq tallies _ _ _ credits.edges]
  intro x hx
  rw [(sameShape_furnishRooms _ _).size]
  exact inside x.1 (List.mem_map_of_mem hx)

end Creation

/-! ## Counting cuts -/

theorem tellEdges_eq (context : BuildContext dungeon) (xs : List (MatchedEdge dungeon × EdgeId))
    (tallies : ∀ x ∈ xs, ∀ removal, x.1.fate = .cut removal → removal = some countRemovedDoorway)
    (s : DungeonStats) : xs.foldl (Cutting.tellEdge context) s =
      { s with doorwaysRemoved := s.doorwaysRemoved + xs.countP (·.1.fate.isCut) } := by
  induction xs generalizing s with
  | nil => rfl
  | cons x rest ih =>
    rw [List.foldl_cons, ih fun y hy => tallies y (List.mem_cons_of_mem x hy), List.countP_cons]
    unfold Cutting.tellEdge
    cases fate : x.1.fate with
    | kept => rfl
    | cut removal =>
      obtain rfl := tallies x List.mem_cons_self removal fate
      simp [Fate.isCut, countRemovedDoorway]
      omega

theorem tellAll_eq (tallies : ∀ r ∈ batch, Tallies r.rule) (s : DungeonStats) :
    batch.foldl (Cutting.tell host) s =
      { s with doorwaysRemoved := s.doorwaysRemoved + (batch.flatMap Resolved.cutEdges).length } := by
  induction batch generalizing s with
  | nil => rfl
  | cons r rest ih =>
    have told : Cutting.tell host s r =
        { s with doorwaysRemoved := s.doorwaysRemoved + r.cutEdges.length } := by
      unfold Cutting.tell Resolved.cutEdges
      rw [tellEdges_eq, List.length_map, List.countP_eq_length_filter]
      exact fun x hx => (tallies r List.mem_cons_self).cuts x.1 (List.of_mem_zip hx).1
    rw [List.foldl_cons, told, ih fun s hs => tallies s (List.mem_cons_of_mem r hs),
      List.flatMap_cons, List.length_append]
    simp only [Nat.add_assoc]

end GraphSplice.Dungeon
