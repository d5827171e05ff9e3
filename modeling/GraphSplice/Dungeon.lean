import GraphSplice.Grammar

/-!
A demonstration domain: the level of a dungeon, grown by rules on the graph of its rooms. Rooms
are vertices and doorways are edges. A level starts as an entrance joined to a final room. The
corridor rule puts a room into a doorway; the cycle rule replaces a doorway between two rooms by
two rooms joined to both; the branch rule hangs a new room off one that is not final. The tags of
the three rules keep them apart in the analysis of conflicts.
-/

namespace GraphSplice

inductive RoomKind where
  /-- Before the creation callback ran. -/
  | unplaced
  | entrance
  | final
  | room
  deriving DecidableEq, Repr

def RoomKind.name : RoomKind → String
  | .unplaced => "Unplaced"
  | .entrance => "Entrance"
  | .final => "Final"
  | .room => "Room"

structure Room where
  kind : RoomKind
  size : Nat
  deriving DecidableEq, Repr

/-- Whether a doorway can be walked through. -/
structure Doorway where
  physical : Bool
  deriving DecidableEq, Repr

/-- What the callbacks count. -/
structure DungeonStats where
  roomsCreated : Nat
  doorwaysCreated : Nat
  doorwaysRemoved : Nat
  deriving DecidableEq, Repr

abbrev dungeon : Domain := ⟨Room, Doorway, Unit, DungeonStats, ⟨.unplaced, 0⟩, ⟨false⟩⟩

def DungeonStats.zero : DungeonStats := ⟨0, 0, 0⟩

namespace Dungeon

/-- The size of every room that is generated. -/
def roomSize : Nat := 4

/-- The entrance and the final room, joined by one doorway. -/
def initial : Host dungeon :=
  let rooms : Host dungeon :=
    (Graph.empty.addVertex ⟨.entrance, roomSize⟩).addVertex ⟨.final, roomSize⟩
  match rooms.addEdge ⟨0⟩ ⟨1⟩ ⟨true⟩ with
  | .ok level => level
  | .error _ => rooms

/-! ## Predicates -/

def roomAt? (level : Host dungeon) (v : VertexId) : Option Room := (level.vertex? v).map (·.payload)

def isPlaced (level : Host dungeon) (v : VertexId) : Bool :=
  (roomAt? level v).any fun r => r.kind ≠ .unplaced

def isNotFinal (level : Host dungeon) (v : VertexId) : Bool :=
  (roomAt? level v).any fun r => r.kind ≠ .unplaced ∧ r.kind ≠ .final

/-- The entrance keeps at most two doorways. -/
def canBranch (level : Host dungeon) (v : VertexId) : Bool :=
  isNotFinal level v && (roomAt? level v).any fun r => r.kind ≠ .entrance ∨ level.degree v < 2

def isDoorway (level : Host dungeon) (e : EdgeId) : Bool :=
  (level.edge? e).any (·.payload.physical)

def vertexCheck (p : Host dungeon → VertexId → Bool) : VertexCheck dungeon :=
  fun context v s => (p context.host v, s)

def edgeCheck (p : Host dungeon → EdgeId → Bool) : EdgeCheck dungeon :=
  fun context e s => (p context.host e, s)

/-! ## Callbacks -/

def countRemovedDoorway : EdgeRemoval dungeon := fun _ _ stats =>
  { stats with doorwaysRemoved := stats.doorwaysRemoved + 1 }

def createRoom : VertexCreation dungeon := fun _ v (level, stats) =>
  if level.Contains v then
    (level.modifyVertex v fun _ => ⟨.room, roomSize⟩,
      { stats with roomsCreated := stats.roomsCreated + 1 })
  else (level, stats)

def createDoorway : EdgeCreation dungeon := fun _ e (level, stats) =>
  if (level.edge? e).isSome then
    (level.modifyEdge e fun _ => ⟨true⟩,
      { stats with doorwaysCreated := stats.doorwaysCreated + 1 })
  else (level, stats)

/-! ## Rules -/

/-- Two placed rooms at 0 and 1, the doorway 0 between them cut, and a room 2 spliced into both
of its sockets. -/
def corridor : Except DraftError (Draft dungeon) := do
  let d := ((Draft.empty.named "corridor-room").keepVertex 0).keepVertex 0
  let d ← d.checkVertex 0 (vertexCheck isPlaced)
  let d ← d.checkVertex 1 (vertexCheck isPlaced)
  let d ← d.cutEdge 0 1 0
  let d ← d.checkEdge 0 (edgeCheck isDoorway)
  let d ← d.onRemoveEdge 0 countRemovedDoorway
  let d ← (d.addVertex 0).onCreateVertex 2 createRoom
  let d ← d.addEdge 0 2 (some 0) none 0
  let d ← d.addEdge 1 2 (some 0) none 0
  let d ← d.onCreateEdge 1 createDoorway
  d.onCreateEdge 2 createDoorway

/-- A room joined to the rooms 0 and 1. -/
def addDetour (d : Draft dungeon) : Except DraftError (Draft dungeon) := do
  let room := d.nextVertex
  let d ← (d.addVertex 0).onCreateVertex room createRoom
  let left := d.nextEdge
  let d ← (← d.addEdge 0 room none none 0).onCreateEdge left createDoorway
  let right := d.nextEdge
  (← d.addEdge 1 room none none 0).onCreateEdge right createDoorway

/-- Two rooms at 0 and 1 that can branch, the doorway 0 between them cut, and two detours. -/
def cycle : Except DraftError (Draft dungeon) := do
  let d := ((Draft.empty.named "cycle-room").keepVertex 1).keepVertex 1
  let d ← d.checkVertex 0 (vertexCheck canBranch)
  let d ← d.checkVertex 1 (vertexCheck canBranch)
  let d ← d.cutEdge 0 1 0
  let d ← d.checkEdge 0 (edgeCheck isDoorway)
  let d ← d.onRemoveEdge 0 countRemovedDoorway
  let d ← addDetour d
  addDetour d

/-- A room at 0 that is not final, its doorway 0 to any room 1, and a room 2 joined to it. -/
def branch : Except DraftError (Draft dungeon) := do
  let d := ((Draft.empty.named "branch-room").keepVertex 2).keepVertex 0
  let d ← d.checkVertex 0 (vertexCheck isNotFinal)
  let d ← d.keepEdge 0 1 0
  let d ← d.checkEdge 0 (edgeCheck isDoorway)
  let d ← (d.addVertex 0).onCreateVertex 2 createRoom
  let d ← d.addEdge 0 2 none none 0
  d.onCreateEdge 1 createDoorway

/-- A grammar under construction, with the rules registered and the events so far. -/
structure Progress where
  grammar : Grammar dungeon
  ids : List RuleId
  events : List Event

def Progress.add (p : Progress) (draft : Except DraftError (Draft dungeon)) :
    Except DraftError Progress := do
  let d ← draft
  let registered := p.grammar.add d none
  let id ← registered.result
  return ⟨registered.grammar, p.ids ++ [id], p.events ++ registered.events⟩

/-- Registers the corridor, cycle and branch rules. -/
def register (g : Grammar dungeon) : Except DraftError Progress :=
  [corridor, cycle, branch].foldlM Progress.add ⟨g, [], []⟩

end Dungeon

end GraphSplice
