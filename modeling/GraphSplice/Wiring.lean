import GraphSplice.Graph

/-!
The wiring of a graph, on which a batch of rule applications works. Every host vertex is a node;
every host edge is split into two sockets, one at each end, and a link between them. A socket
hangs off its node by an attachment. Cutting an edge takes its link away and leaves the sockets;
cutting a vertex takes its node away with all its sockets. New links join fresh sockets or
sockets left vacant.

Nodes and sockets, called joints, and attachments and links, called wires, live in two arenas; a
removed element leaves an empty cell. The host elements come first, at positions computed from
their handles.
-/

namespace GraphSplice

abbrev JointId := Nat
abbrev WireId := Nat

/-- The application that added an element, and which added element of its rule it stands for. -/
structure Provenance where
  rule : RuleId
  element : Nat
  application : Nat
  deriving DecidableEq, Repr

inductive NodeOrigin where
  | host (v : VertexId)
  | created (p : Provenance)
  deriving DecidableEq, Repr

inductive SocketOrigin where
  | host (e : EdgeId) (side : Side)
  | fresh
  deriving DecidableEq, Repr

inductive LinkOrigin where
  | host (e : EdgeId)
  | created (p : Provenance)
  deriving DecidableEq, Repr

inductive JointKind where
  | node (origin : NodeOrigin)
  | socket (origin : SocketOrigin)
  deriving DecidableEq, Repr

inductive WireKind where
  | attachment
  | link (origin : LinkOrigin)
  deriving DecidableEq, Repr

def JointKind.isSocket : JointKind → Bool
  | .node _ => false
  | .socket _ => true

def WireKind.isLink : WireKind → Bool
  | .attachment => false
  | .link _ => true

structure Joint where
  kind : JointKind
  /-- The wires at the joint, oldest first. -/
  incident : List WireId
  deriving DecidableEq, Repr

structure Wire where
  ends : Ends JointId
  kind : WireKind
  deriving DecidableEq, Repr

structure Wiring where
  joints : Array (Option Joint)
  wires : Array (Option Wire)
  /-- The number of host vertices. -/
  hostOrder : Nat
  /-- The number of host edges. -/
  hostSize : Nat

namespace Wiring

/-! ## Arena -/

def joint? (w : Wiring) (j : JointId) : Option Joint := w.joints[j]?.join

def wire? (w : Wiring) (e : WireId) : Option Wire := w.wires[e]?.join

def IsLive (w : Wiring) (j : JointId) : Prop := (w.joint? j).isSome = true

instance (w : Wiring) (j : JointId) : Decidable (w.IsLive j) :=
  inferInstanceAs (Decidable (_ = true))

def incident (w : Wiring) (j : JointId) : List WireId :=
  match w.joint? j with
  | none => []
  | some joint => joint.incident

/-- The joint across the wire. -/
def opposite? (w : Wiring) (e : WireId) (j : JointId) : Option JointId :=
  (w.wire? e).bind (·.ends.opposite? j)

def modifyJoint (w : Wiring) (j : JointId) (f : Joint → Joint) : Wiring :=
  { w with joints := w.joints.modify j (·.map f) }

def listWire (w : Wiring) (j : JointId) (e : WireId) : Wiring :=
  w.modifyJoint j fun joint => { joint with incident := joint.incident ++ [e] }

def unlistWire (w : Wiring) (j : JointId) (e : WireId) : Wiring :=
  w.modifyJoint j fun joint => { joint with incident := joint.incident.filter (· ≠ e) }

/-- The position that the next joint takes. -/
def nextJoint (w : Wiring) : JointId := w.joints.size

/-- The position that the next wire takes. -/
def nextWire (w : Wiring) : WireId := w.wires.size

def addJoint (w : Wiring) (kind : JointKind) : Wiring :=
  { w with joints := w.joints.push (some ⟨kind, []⟩) }

def addWire (w : Wiring) (a b : JointId) (kind : WireKind) : Wiring :=
  let e := w.nextWire
  let w := { w with wires := w.wires.push (some ⟨⟨a, b⟩, kind⟩) }
  (w.listWire a e).listWire b e

def removeWire (w : Wiring) (e : WireId) : Wiring :=
  match w.wire? e with
  | none => w
  | some wire =>
    let w := { w with wires := w.wires.setIfInBounds e none }
    (w.unlistWire wire.ends.first e).unlistWire wire.ends.second e

def removeJoint (w : Wiring) (j : JointId) : Wiring :=
  let w := (w.incident j).foldl (fun w e => w.removeWire e) w
  { w with joints := w.joints.setIfInBounds j none }

def isLink (w : Wiring) (e : WireId) : Bool := (w.wire? e).any (·.kind.isLink)

/-- The links at a socket. -/
def links (w : Wiring) (j : JointId) : List WireId := (w.incident j).filter w.isLink

/-- The nodes that a socket hangs off, once per attachment. -/
def attachedNodes (w : Wiring) (j : JointId) : List JointId :=
  (w.incident j).filterMap fun e =>
    match w.wire? e with
    | some ⟨ends, .attachment⟩ => ends.opposite? j
    | _ => none

def isSocket (w : Wiring) (j : JointId) : Bool := (w.joint? j).any (·.kind.isSocket)

/-- The sockets not yet removed, in order. -/
def liveSockets (w : Wiring) : List JointId := (List.range w.joints.size).filter w.isSocket

/-! ## Expansion of a host graph -/

def socketSlot (order : Nat) (e : EdgeId) (side : Side) : JointId :=
  order + 2 * e.slot + side.toNat

def linkSlot (e : EdgeId) : WireId := 3 * e.slot + 2

def addNode (w : Wiring) (origin : NodeOrigin) : Wiring := w.addJoint (.node origin)

/-- Adds a socket that hangs off `node`. -/
def addSocket (w : Wiring) (node : JointId) (origin : SocketOrigin) : Wiring :=
  let socket := w.nextJoint
  (w.addJoint (.socket origin)).addWire node socket .attachment

def addLink (w : Wiring) (a b : JointId) (origin : LinkOrigin) : Wiring :=
  w.addWire a b (.link origin)

def expandEdge (w : Wiring) (e : EdgeId) (ends : Ends VertexId) : Wiring :=
  let first := w.nextJoint
  let w := w.addSocket ends.first.slot (.host e .first)
  let second := w.nextJoint
  let w := w.addSocket ends.second.slot (.host e .second)
  w.addLink first second (.host e)

variable {N E : Type}

def ofGraph (g : Graph N E) : Wiring :=
  let bare : Wiring := ⟨#[], #[], g.order, g.size⟩
  let nodes := g.vertexIds.foldl (fun w v => w.addNode (.host v)) bare
  g.edgeIds.foldl (fun w e =>
    match g.edge? e with
    | none => w
    | some edge => w.expandEdge e edge.ends) nodes

/-! ## Host elements -/

/-- The node of host vertex `v`, unless it has been cut. -/
def hostNode? (w : Wiring) (v : VertexId) : Option JointId :=
  if v.slot < w.hostOrder ∧ w.IsLive v.slot then some v.slot else none

/-- The socket at one end of host edge `e`, unless its vertex has been cut. -/
def hostSocket? (w : Wiring) (e : EdgeId) (side : Side) : Option JointId :=
  let socket := socketSlot w.hostOrder e side
  if e.slot < w.hostSize ∧ w.IsLive socket then some socket else none

/-- The link of host edge `e` has not been cut. -/
def HasHostLink (w : Wiring) (e : EdgeId) : Prop :=
  e.slot < w.hostSize ∧ (w.wire? (linkSlot e)).isSome = true

instance (w : Wiring) (e : EdgeId) : Decidable (w.HasHostLink e) :=
  inferInstanceAs (Decidable (_ ∧ _))

/-- Takes the link of host edge `e` away; its sockets stay. -/
def cutEdge (w : Wiring) (e : EdgeId) : Wiring :=
  if w.HasHostLink e then w.removeWire (linkSlot e) else w

/-- Takes the node of host vertex `v` away, with all its sockets. -/
def cutVertex (w : Wiring) (v : VertexId) : Wiring :=
  match w.hostNode? v with
  | none => w
  | some node =>
    let sockets := (w.incident node).filterMap fun e => w.opposite? e node
    (sockets.foldl (fun w socket => w.removeJoint socket) w).removeJoint node

end Wiring

end GraphSplice
