import GraphSplice.Wiring.Text

/-!
Assembly of a graph from a reconciled wiring. Each node becomes a vertex and each link an edge,
in the order of their positions. Host elements keep index and payload; created ones get fresh
indices and the given payloads. A created link whose ends fell onto one node is left out.
-/

namespace GraphSplice

/-- A socket that does not hang off exactly one node with exactly one link. -/
structure Malformation where
  attachments : Nat
  links : Nat
  deriving DecidableEq, Repr

inductive AssemblyError where
  | malformed (m : Malformation)
  | unknownVertex (v : VertexId)
  | unknownEdge (e : EdgeId)
  | graph (e : GraphError)
  deriving DecidableEq, Repr

namespace Wiring

/-- The node of a socket that is attached once and linked once. -/
def nodeOf (w : Wiring) (socket : JointId) : Except Malformation JointId :=
  match w.attachedNodes socket, (w.links socket).length with
  | [node], 1 => .ok node
  | nodes, links => .error ⟨nodes.length, links⟩

/-- The first socket, in order, that is not well formed. -/
def malformation? (w : Wiring) : Option Malformation :=
  w.liveSockets.findSome? fun socket =>
    match w.nodeOf socket with
    | .ok _ => none
    | .error m => some m

end Wiring

/-- A graph under assembly. -/
structure Assembly (N E : Type) where
  graph : Graph N E
  /-- The vertex made of each node so far. -/
  vertexOf : List (JointId × VertexId)
  createdVertices : List (VertexId × Provenance)
  createdEdges : List (EdgeId × Provenance)
  /-- The created links left out. -/
  folded : List Provenance

namespace Assembly

variable {N E : Type}

def placeNode (host : Graph N E) (fresh : N) (a : Assembly N E) (joint : JointId × Joint) :
    Except AssemblyError (Assembly N E) :=
  let v := a.graph.nextVertex
  let placed := a.vertexOf ++ [(joint.1, v)]
  match joint.2.kind with
  | .socket _ => .ok a
  | .node (.host u) =>
    match host.vertex? u with
    | none => .error (.unknownVertex u)
    | some record =>
      .ok { a with graph := a.graph.addVertexAt record.index record.payload, vertexOf := placed }
  | .node (.created p) =>
    .ok { a with
      graph := a.graph.addVertex fresh
      vertexOf := placed
      createdVertices := a.createdVertices ++ [(v, p)] }

def ofGraphError {α : Type} : Except GraphError α → Except AssemblyError α
  | .ok x => .ok x
  | .error e => .error (.graph e)

def ofMalformation {α : Type} : Except Malformation α → Except AssemblyError α
  | .ok x => .ok x
  | .error m => .error (.malformed m)

def placeLink (host : Graph N E) (fresh : E) (a : Assembly N E) (u v : VertexId) :
    LinkOrigin → Except AssemblyError (Assembly N E)
  | .host e =>
    match host.edge? e with
    | none => .error (.unknownEdge e)
    | some record => do
      let graph ← ofGraphError (a.graph.addEdgeAt u v record.index record.payload)
      return { a with graph := graph }
  | .created p => do
    let graph ← ofGraphError (a.graph.addEdge u v fresh)
    return { a with graph := graph, createdEdges := a.createdEdges ++ [(a.graph.nextEdge, p)] }

/-- A host loop survives, and so does a host edge whose ends were merged. -/
def leftOut? (first second : JointId) : LinkOrigin → Option Provenance
  | .host _ => none
  | .created p => if first = second then some p else none

def placeWire (w : Wiring) (host : Graph N E) (fresh : E) (a : Assembly N E) (wire : Wire) :
    Except AssemblyError (Assembly N E) :=
  match wire.kind with
  | .attachment => .ok a
  | .link origin => do
    let first ← ofMalformation (w.nodeOf wire.ends.first)
    let second ← ofMalformation (w.nodeOf wire.ends.second)
    match leftOut? first second origin with
    | some p => return { a with folded := a.folded ++ [p] }
    | none =>
      match a.vertexOf.lookup first, a.vertexOf.lookup second with
      | some u, some v => placeLink host fresh a u v origin
      | _, _ => return a

end Assembly

namespace Wiring

variable {N E : Type}

def assemble (w : Wiring) (host : Graph N E) (freshNode : N) (freshEdge : E) :
    Except AssemblyError (Assembly N E) :=
  match w.malformation? with
  | some m => .error (.malformed m)
  | none => do
    let start : Assembly N E := ⟨host.emptyAfter, [], [], [], []⟩
    let nodes ← w.liveJoints.foldlM (Assembly.placeNode host freshNode) start
    w.liveWires.foldlM (fun a wire => Assembly.placeWire w host freshEdge a wire.2) nodes

end Wiring

end GraphSplice
