import GraphSplice.Application
import GraphSplice.Event
import GraphSplice.Wiring.Assembly
import GraphSplice.Wiring.Merging

/-!
Derivation of a graph by a batch of applications in one pass. The host is expanded into its
wiring; all cuts of all applications come before any insertion; then sockets and nodes are
reconciled, the graph is assembled, and the creation callbacks run on it. The host stays as it
was.
-/

namespace GraphSplice

variable {D : Domain}

/-! ## Cuts -/

/-- A wiring being cut, with the state of the caller. -/
structure Cutting (D : Domain) where
  wiring : Wiring
  state : D.BuildState

namespace Cutting

/-- The callback sees the edge before it is cut. An edge already gone is not cut again. -/
def cutEdge (context : BuildContext D) (c : Cutting D) (x : MatchedEdge D × EdgeId) : Cutting D :=
  match x.1.fate with
  | .kept => c
  | .cut removal =>
    if c.wiring.HasHostLink x.2 then
      ⟨c.wiring.cutEdge x.2, removal.elim c.state fun run => run context x.2 c.state⟩
    else c

/-- The callback sees the vertex before it is cut. A vertex already gone is not cut again. -/
def cutVertex (context : BuildContext D) (c : Cutting D) (x : MatchedVertex D × VertexId) :
    Cutting D :=
  match x.1.fate with
  | .kept => c
  | .cut removal =>
    if (c.wiring.hostNode? x.2).isSome then
      ⟨c.wiring.cutVertex x.2, removal.elim c.state fun run => run context x.2 c.state⟩
    else c

/-- Cuts the edges of an application and then its vertices. -/
def apply (host : Host D) (c : Cutting D) (r : Resolved D) : Cutting D :=
  let context := r.context host
  let edgesCut := (r.rule.edges.zip r.occurrence.edges).foldl (cutEdge context) c
  (r.rule.vertices.zip r.occurrence.vertices).foldl (cutVertex context) edgesCut

def applyAll (host : Host D) (batch : List (Resolved D)) (c : Cutting D) : Cutting D :=
  batch.foldl (apply host) c

end Cutting

/-! ## Insertions -/

namespace Insertion

/-- A node for each added vertex of an application. -/
def addNodes (r : Resolved D) (application : Nat) (w : Wiring) : Wiring :=
  (List.range r.rule.addedVertices.length).foldl
    (fun w k => w.addNode (.created ⟨r.id, k, application⟩)) w

/-- The wiring with the socket for one end of an added edge, and that socket: a fresh one, or the
one that the named cut edge left at the bound vertex. None if its vertex has been cut. -/
def socketFor (host : Host D) (r : Resolved D) (firstNode : JointId) (w : Wiring) :
    Endpoint → Option Nat → Option (Wiring × JointId)
  | .created k, _ =>
    if k < r.rule.addedVertices.length then
      some (w.addSocket (firstNode + k) .fresh, w.nextJoint)
    else none
  | .matched i, none => do
    let v ← r.occurrence.vertices[i]?
    let node ← w.hostNode? v
    return (w.addSocket node .fresh, w.nextJoint)
  | .matched i, some cut => do
    let v ← r.occurrence.vertices[i]?
    let e ← r.occurrence.edges[cut]?
    let record ← host.edge? e
    let side ← record.ends.sideAt? v
    let socket ← w.hostSocket? e side
    return (w, socket)

def addEdge (host : Host D) (r : Resolved D) (application : Nat) (firstNode : JointId)
    (w : Wiring) (x : AddedEdge D × Nat) : Option Wiring := do
  let (w, first) ← socketFor host r firstNode w x.1.ends.first x.1.sockets.first
  let (w, second) ← socketFor host r firstNode w x.1.ends.second x.1.sockets.second
  return w.addLink first second (.created ⟨r.id, x.2, application⟩)

/-- Adds what one application adds; none if it refers to a vertex that has been cut. -/
def apply (host : Host D) (r : Resolved D) (application : Nat) (w : Wiring) : Option Wiring :=
  r.rule.addedEdges.zipIdx.foldlM (addEdge host r application w.nextJoint)
    (addNodes r application w)

/-- Adds what the applications add, in order. -/
def applyAll (host : Host D) (batch : List (Resolved D)) (w : Wiring) : Except ApplyError Wiring :=
  batch.zipIdx.foldlM (fun w x =>
    match apply host x.1 x.2 w with
    | none => .error (.stale x.1.id x.2)
    | some w => .ok w) w

end Insertion

/-! ## Creation -/

/-- The graph derived from a host, and what in it was created, in order. -/
structure Derivation (D : Domain) where
  graph : Host D
  createdVertices : List VertexId
  createdEdges : List EdgeId

namespace Creation

def createVertex (host : Host D) (batch : List (Resolved D)) (out : Host D × D.BuildState)
    (x : VertexId × Provenance) : Host D × D.BuildState :=
  match batch[x.2.application]? with
  | none => out
  | some r =>
    match (r.rule.addedVertices[x.2.element]?).bind (·.creation) with
    | none => out
    | some run => run (r.context host) x.1 out

def createEdge (host : Host D) (batch : List (Resolved D)) (out : Host D × D.BuildState)
    (x : EdgeId × Provenance) : Host D × D.BuildState :=
  match batch[x.2.application]? with
  | none => out
  | some r =>
    match (r.rule.addedEdges[x.2.element]?).bind (·.creation) with
    | none => out
    | some run => run (r.context host) x.1 out

/-- Runs the callbacks of all created vertices and then those of all created edges. -/
def run (host : Host D) (batch : List (Resolved D)) (a : Assembly D.Node D.Arc)
    (state : D.BuildState) : Host D × D.BuildState :=
  a.createdEdges.foldl (createEdge host batch)
    (a.createdVertices.foldl (createVertex host batch) (a.graph, state))

end Creation

/-! ## The whole pass -/

/-- What a call answers: a result, the state of the caller after it, also where it fails, and the
events on the way. -/
structure Report (σ α : Type) where
  result : Except ApplyError α
  state : σ
  events : List Event

namespace Report

variable {σ α : Type}

def fail (e : ApplyError) (state : σ) (events : List Event) : Report σ α :=
  ⟨.error e, state, events⟩

def after (events : List Event) (r : Report σ α) : Report σ α :=
  { r with events := events ++ r.events }

end Report

namespace Derivation

structure Options where
  checkParity : Bool
  showWiring : Bool
  deriving DecidableEq, Repr

/-- A wiring after reconciliation, with the numbers of sockets and nodes folded away and of
sockets dropped. -/
structure Reconciled where
  wiring : Wiring
  sockets : Nat
  nodes : Nat
  dangling : Nat

def reconcile (w : Wiring) (checkParity : Bool) : Except ApplyError Reconciled :=
  match w.mergeSockets checkParity with
  | .error c => .error (.oddCycle c.sockets.length)
  | .ok (merged, sockets) =>
    let (joined, nodes) := merged.mergeNodes
    let (pruned, dangling) := joined.prune
    .ok ⟨pruned, sockets, nodes, dangling⟩

def assemblyError : AssemblyError → ApplyError
  | .malformed m => .malformedSocket m.attachments m.links
  | .unknownVertex v => .unknownVertex v
  | .unknownEdge e => .unknownEdge e
  | .graph e => .graph e

def shown (options : Options) (stage : Stage) (w : Wiring) : List Event :=
  if options.showWiring then [.wiringShown stage w.text] else []

/-- Assembles the graph of a reconciled wiring and runs the creation callbacks. -/
def build (host : Host D) (batch : List (Resolved D)) (w : Wiring) (state : D.BuildState) :
    Report D.BuildState (Derivation D) :=
  match w.assemble host D.freshNode D.freshArc with
  | .error e => .fail (assemblyError e) state []
  | .ok a =>
    let (graph, state) := Creation.run host batch a state
    ⟨.ok ⟨graph, a.createdVertices.map (·.1), a.createdEdges.map (·.1)⟩, state,
      a.folded.map fun p => .linkFolded ("Created(" ++ p.text ++ ")")⟩

/-- Derives a graph from `host` by a resolved batch. -/
def derive (host : Host D) (batch : List (Resolved D)) (state : D.BuildState)
    (options : Options) : Report D.BuildState (Derivation D) :=
  let cut := Cutting.applyAll host batch ⟨.ofGraph host, state⟩
  match Insertion.applyAll host batch cut.wiring with
  | .error e => .fail e cut.state []
  | .ok inserted =>
    let before := shown options .inserted inserted
    match reconcile inserted options.checkParity with
    | .error e => .fail e cut.state before
    | .ok r =>
      let event := Event.reconciled batch.length r.sockets r.nodes r.dangling
      (build host batch r.wiring cut.state).after
        (before ++ shown options .merged r.wiring ++ [event])

end Derivation

end GraphSplice
