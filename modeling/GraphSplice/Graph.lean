import GraphSplice.Handle
import GraphSplice.Ends

/-!
Undirected multigraphs with payloads. Vertices and edges live in append-only arenas; every
element also carries a stable index, which survives when the graph is derived into another one.
The incidence list of a vertex repeats what the edge table says, in the order of the edges, and
holds a loop once.
-/

namespace GraphSplice

/-- The identity of a graph element across derivations, a 32-bit word. -/
abbrev StableIndex := UInt32

namespace StableIndex

/-- The index after `i`; the greatest one is its own successor. -/
def next (i : StableIndex) : StableIndex := if i.toNat < 4294967295 then i + 1 else i

/-- The counter of fresh indices after the index `used` was handed out or supplied. -/
def advance (counter used : StableIndex) : StableIndex :=
  if counter.toNat < (next used).toNat then next used else counter

theorem toNat_next (i : StableIndex) : (next i).toNat = min (i.toNat + 1) 4294967295 := by
  have bound := i.toNat_lt
  unfold next
  split
  · rw [UInt32.toNat_add]
    simp
    omega
  · omega

theorem toNat_advance (counter used : StableIndex) :
    (advance counter used).toNat = max counter.toNat (next used).toNat := by
  unfold advance
  split <;> omega

end StableIndex

universe u v

structure Vertex (N : Type u) where
  index : StableIndex
  payload : N

structure Edge (E : Type v) where
  index : StableIndex
  ends : Ends VertexId
  payload : E

structure Graph (N : Type u) (E : Type v) where
  vertices : Array (Vertex N)
  edges : Array (Edge E)
  incidence : Array (List EdgeId)
  nextVertexIndex : StableIndex
  nextEdgeIndex : StableIndex

inductive GraphError where
  | unknownVertex (v : VertexId)
  deriving DecidableEq, Repr

def GraphError.message : GraphError → String
  | .unknownVertex v => "unknown vertex " ++ v.text

namespace Graph

variable {N : Type u} {E : Type v}

def empty : Graph N E := ⟨#[], #[], #[], 0, 0⟩

/-- An empty graph whose fresh indices continue those of `g`, so that an index retired by a
derivation is never handed out again. -/
def emptyAfter (g : Graph N E) : Graph N E :=
  ⟨#[], #[], #[], g.nextVertexIndex, g.nextEdgeIndex⟩

def order (g : Graph N E) : Nat := g.vertices.size

def size (g : Graph N E) : Nat := g.edges.size

def isEmpty (g : Graph N E) : Bool := g.order == 0

def vertexIds (g : Graph N E) : List VertexId := (List.range g.order).map Handle.mk

def edgeIds (g : Graph N E) : List EdgeId := (List.range g.size).map Handle.mk

/-- The handle that the next added vertex takes. -/
def nextVertex (g : Graph N E) : VertexId := ⟨g.order⟩

/-- The handle that the next added edge takes. -/
def nextEdge (g : Graph N E) : EdgeId := ⟨g.size⟩

def vertex? (g : Graph N E) (v : VertexId) : Option (Vertex N) := g.vertices[v.slot]?

def edge? (g : Graph N E) (e : EdgeId) : Option (Edge E) := g.edges[e.slot]?

def Contains (g : Graph N E) (v : VertexId) : Prop := v.slot < g.order

instance (g : Graph N E) (v : VertexId) : Decidable (g.Contains v) :=
  inferInstanceAs (Decidable (v.slot < g.order))

/-- Indices need not be unique: the caller's index is taken as it is. -/
def addVertexAt (g : Graph N E) (index : StableIndex) (payload : N) : Graph N E :=
  { g with
    vertices := g.vertices.push ⟨index, payload⟩
    incidence := g.incidence.push []
    nextVertexIndex := g.nextVertexIndex.advance index }

def addVertex (g : Graph N E) (payload : N) : Graph N E := g.addVertexAt g.nextVertexIndex payload

/-- Lists edge `e` last at vertex `v`. -/
def listAt (incidence : Array (List EdgeId)) (v : VertexId) (e : EdgeId) : Array (List EdgeId) :=
  incidence.modify v.slot (· ++ [e])

def addEdgeAt (g : Graph N E) (a b : VertexId) (index : StableIndex) (payload : E) :
    Except GraphError (Graph N E) :=
  if ¬ g.Contains a then .error (.unknownVertex a)
  else if ¬ g.Contains b then .error (.unknownVertex b)
  else
    let e := g.nextEdge
    let listed := listAt g.incidence a e
    .ok { g with
      edges := g.edges.push ⟨index, ⟨a, b⟩, payload⟩
      incidence := if a = b then listed else listAt listed b e
      nextEdgeIndex := g.nextEdgeIndex.advance index }

def addEdge (g : Graph N E) (a b : VertexId) (payload : E) : Except GraphError (Graph N E) :=
  g.addEdgeAt a b g.nextEdgeIndex payload

def modifyVertex (g : Graph N E) (v : VertexId) (f : N → N) : Graph N E :=
  { g with vertices := g.vertices.modify v.slot fun r => { r with payload := f r.payload } }

def modifyEdge (g : Graph N E) (e : EdgeId) (f : E → E) : Graph N E :=
  { g with edges := g.edges.modify e.slot fun r => { r with payload := f r.payload } }

def findVertex? (g : Graph N E) (index : StableIndex) : Option VertexId :=
  g.vertexIds.find? fun v => (g.vertex? v).any (·.index == index)

/-- The edges at `v`, oldest first; none for an unknown handle. -/
def incident (g : Graph N E) (v : VertexId) : List EdgeId := (g.incidence[v.slot]?).getD []

/-- Both ends of the edge are one vertex. -/
def isLoop (g : Graph N E) (e : EdgeId) : Bool :=
  (g.edge? e).any fun r => r.ends.first = r.ends.second

/-- How many edge ends sit on `v`; a loop counts twice. -/
def degree (g : Graph N E) (v : VertexId) : Nat :=
  (g.incident v).length + (g.incident v).countP g.isLoop

/-- The vertices across the edges at `v`, once per edge; a loop yields `v`. -/
def neighbors (g : Graph N E) (v : VertexId) : List VertexId :=
  (g.incident v).filterMap fun e => (g.edge? e).bind (·.ends.opposite? v)

def edgesBetween (g : Graph N E) (a b : VertexId) : List EdgeId :=
  (g.incident a).filter fun e => (g.edge? e).any fun r => r.ends.Joins a b

def containsEdge (g : Graph N E) (a b : VertexId) : Bool := !(g.edgesBetween a b).isEmpty

@[simp] theorem order_addVertexAt (g : Graph N E) (index : StableIndex) (payload : N) :
    (g.addVertexAt index payload).order = g.order + 1 := by simp [addVertexAt, order]

theorem mem_vertexIds {g : Graph N E} {v : VertexId} : v ∈ g.vertexIds ↔ g.Contains v := by
  simp only [vertexIds, List.mem_map, List.mem_range, Contains]
  constructor
  · rintro ⟨i, hi, rfl⟩
    exact hi
  · exact fun h => ⟨v.slot, h, rfl⟩

theorem addEdgeAt_isOk_iff {g : Graph N E} {a b : VertexId} {index : StableIndex} {payload : E} :
    (∃ h, g.addEdgeAt a b index payload = .ok h) ↔ g.Contains a ∧ g.Contains b := by
  unfold addEdgeAt
  by_cases ha : g.Contains a <;> by_cases hb : g.Contains b <;> simp [ha, hb]

end Graph

end GraphSplice
