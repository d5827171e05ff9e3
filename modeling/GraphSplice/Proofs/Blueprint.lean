import GraphSplice.Derivation
import GraphSplice.Proofs.Walk
import Mathlib.Logic.Relation

/-!
What a batch of applications makes of a host graph, said without any arena. A blueprint has nodes,
sockets that they own, and links between sockets. Nodes that own sockets at even distance are
merged; each class of merged nodes becomes a vertex, and of each component of links one link
becomes an edge unless it would be a created loop.
-/

namespace GraphSplice

/-- A connection point: one end of a host edge, or the free end of an added edge. -/
inductive Socket where
  | host (e : EdgeId) (side : Side)
  | fresh (link : Provenance) (side : Side)
  deriving DecidableEq

structure Strand where
  origin : LinkOrigin
  ends : Ends Socket
  deriving DecidableEq

structure Blueprint where
  nodes : List NodeOrigin
  owner : Socket → Option NodeOrigin
  links : List Strand

namespace Blueprint

variable (b : Blueprint)

def Linked (s t : Socket) : Prop := ∃ x ∈ b.links, x.ends.Joins s t

/-- The nodes own sockets at even distance. -/
def Meets (m n : NodeOrigin) : Prop :=
  ∃ s t, b.owner s = some m ∧ b.owner t = some n ∧ AtEvenDistance b.Linked s t

def Merged : NodeOrigin → NodeOrigin → Prop := Relation.EqvGen b.Meets

/-- The node comes before all others of its class. -/
def Leads (n : NodeOrigin) : Prop :=
  ∀ m ∈ b.nodes, b.Merged m n → b.nodes.idxOf n ≤ b.nodes.idxOf m

open Classical in
/-- The first node of each class, in order. -/
noncomputable def leads : List NodeOrigin := b.nodes.filter fun n => b.Leads n

open Classical in
/-- The vertex that the owner of a socket becomes part of. -/
noncomputable def vertexAt (s : Socket) : VertexId :=
  ⟨b.leads.findIdx fun m => ∃ n, b.owner s = some n ∧ b.Merged m n⟩

noncomputable def vertexEnds (x : Strand) : Ends VertexId := x.ends.map b.vertexAt

/-- The links belong to one component. -/
def SameComponent (x y : Strand) : Prop := Connected b.Linked x.ends.first y.ends.first

/-- The list has one link of each component, in the order of all links, and every host link. -/
structure Selects (chosen : List Strand) : Prop where
  sublist : chosen.Sublist b.links
  exists_unique : ∀ x ∈ b.links, ∃! y, y ∈ chosen ∧ b.SameComponent x y
  host : ∀ x ∈ b.links, ∀ e, x.origin = .host e → x ∈ chosen

/-- A created link between sockets of one class is left out; a host link is kept. -/
def Survives (x : Strand) : Prop :=
  (∃ e, x.origin = .host e) ∨ b.vertexAt x.ends.first ≠ b.vertexAt x.ends.second

/-- Some odd number of steps along links leads from a socket back to it. -/
def Odd : Prop := ∃ s, OnOddWalk b.Linked s

/-- Some walk of even length joins the sockets. -/
def Beside (s t : Socket) : Prop := ∃ n, Even n ∧ Walk b.Linked n s t

/-- The links between two sockets. -/
def between (s t : Socket) : List Strand := b.links.filter fun x => x.ends.Joins s t

/-! ### Refusals -/

/-- The place of a host socket among all host sockets. -/
def place (e : EdgeId) (side : Side) : Nat := 2 * e.slot + side.toNat

/-- The first host socket on an odd closed walk is in a component of `n` sockets. -/
def FirstOdd (n : Nat) : Prop :=
  ∃ e side, OnOddWalk b.Linked (.host e side) ∧
    (∀ e' side', OnOddWalk b.Linked (.host e' side') → place e side ≤ place e' side') ∧
    ∃ sockets : List Socket, sockets.Nodup ∧ sockets.length = n ∧
      ∀ s, s ∈ sockets ↔ Connected b.Linked (.host e side) s

/-- No host socket at even distance comes before this one. -/
def Foremost (e : EdgeId) (side : Side) : Prop :=
  (b.owner (.host e side)).isSome = true ∧
    ∀ e' side', b.Beside (.host e side) (.host e' side') → place e side ≤ place e' side'

/-- The foremost host sockets on the two sides of a component have `n` links, more than one,
between them. -/
def Crowded (e : EdgeId) (side : Side) (n : Nat) : Prop :=
  2 ≤ n ∧ b.Foremost e side ∧ ∃ e' side', b.Foremost e' side' ∧
    (b.between (.host e side) (.host e' side')).length = n

def FirstCrowded (n : Nat) : Prop :=
  ∃ e side, b.Crowded e side n ∧
    ∀ e' side' n', b.Crowded e' side' n' → place e side ≤ place e' side'

end Blueprint

/-- Records in order: an element that is known keeps its record, the others take the indices that
the counter hands out. -/
def stamp {α R : Type} (known? : α → Option R) (make : StableIndex → α → R) :
    StableIndex → List α → List R
  | _, [] => []
  | counter, x :: rest =>
    match known? x with
    | some record => record :: stamp known? make counter rest
    | none => make counter x :: stamp known? make counter.next rest

/-- The counter after the indices for the elements that are not known were handed out. -/
def counterAfter {α R : Type} (known? : α → Option R) (counter : StableIndex) (xs : List α) :
    StableIndex :=
  StableIndex.next^[xs.countP fun x => (known? x).isNone] counter

namespace NodeOrigin

variable {N E : Type}

def record? (host : Graph N E) : NodeOrigin → Option (Vertex N)
  | .host v => host.vertex? v
  | .created _ => none

def isCreated : NodeOrigin → Bool
  | .host _ => false
  | .created _ => true

end NodeOrigin

namespace LinkOrigin

variable {N E : Type}

def record? (host : Graph N E) : LinkOrigin → Option (Edge E)
  | .host e => host.edge? e
  | .created _ => none

def isCreated : LinkOrigin → Bool
  | .host _ => false
  | .created _ => true

end LinkOrigin

/-- The positions of the elements that satisfy the test. -/
def positions {α : Type} (test : α → Bool) (xs : List α) : List Nat :=
  (xs.zipIdx.filter fun x => test x.1).map (·.2)

namespace Blueprint

variable {D : Domain}

/-- The edge that a host link becomes. -/
noncomputable def edgeRecord? (b : Blueprint) (host : Host D) (x : Strand) : Option (Edge D.Arc) :=
  (x.origin.record? host).map fun record => { record with ends := b.vertexEnds x }

open Classical in
/-- The derivation is the one that the blueprint describes, up to the choice of a link in each
component of created links. -/
structure Yields (b : Blueprint) (host : Host D) (d : Derivation D) : Prop where
  vertices : d.graph.vertices.toList =
    stamp (NodeOrigin.record? host) (fun index _ => ⟨index, D.freshNode⟩) host.nextVertexIndex
      b.leads
  createdVertices : d.createdVertices = (positions NodeOrigin.isCreated b.leads).map Handle.mk
  nextVertexIndex : d.graph.nextVertexIndex =
    counterAfter (NodeOrigin.record? host) host.nextVertexIndex b.leads
  edges : ∃ chosen, b.Selects chosen ∧
    let kept := chosen.filter fun x => b.Survives x
    d.graph.edges.toList =
      stamp (b.edgeRecord? host) (fun index x => ⟨index, b.vertexEnds x, D.freshArc⟩)
        host.nextEdgeIndex kept ∧
    d.createdEdges = (positions (·.origin.isCreated) kept).map Handle.mk ∧
    d.graph.nextEdgeIndex = counterAfter (b.edgeRecord? host) host.nextEdgeIndex kept

end Blueprint

/-! ## The blueprint of a batch -/

section Batch

variable {D : Domain}

/-- Some application of the batch cuts the vertex. -/
def CutsVertex (batch : List (Resolved D)) (v : VertexId) : Prop :=
  ∃ r ∈ batch, ∃ x ∈ r.rule.vertices.zip r.occurrence.vertices, x.1.fate.isCut = true ∧ x.2 = v

/-- Some application of the batch cuts the edge. -/
def CutsEdge (batch : List (Resolved D)) (e : EdgeId) : Prop :=
  ∃ r ∈ batch, ∃ x ∈ r.rule.edges.zip r.occurrence.edges, x.1.fate.isCut = true ∧ x.2 = e

instance (batch : List (Resolved D)) (v : VertexId) : Decidable (CutsVertex batch v) :=
  inferInstanceAs (Decidable (∃ r ∈ batch, ∃ x ∈ r.rule.vertices.zip r.occurrence.vertices, _))

instance (batch : List (Resolved D)) (e : EdgeId) : Decidable (CutsEdge batch e) :=
  inferInstanceAs (Decidable (∃ r ∈ batch, ∃ x ∈ r.rule.edges.zip r.occurrence.edges, _))

namespace Resolved

/-- The node at an endpoint of application `a`. -/
def node? (r : Resolved D) (a : Nat) : Endpoint → Option NodeOrigin
  | .matched i => (r.occurrence.vertices[i]?).map .host
  | .created k =>
    if k < r.rule.addedVertices.length then some (.created ⟨r.id, k, a⟩) else none

/-- The host socket that an end of an added edge is spliced into, if it is. -/
def spliced? (host : Host D) (r : Resolved D) : Endpoint → Option Nat → Option Socket
  | .matched i, some cut => do
    let v ← r.occurrence.vertices[i]?
    let e ← r.occurrence.edges[cut]?
    let record ← host.edge? e
    let side ← record.ends.sideAt? v
    return .host e side
  | _, _ => none

/-- The socket at an end of added edge `k` of application `a`. -/
def socket (host : Host D) (r : Resolved D) (a k : Nat) (x : AddedEdge D) (side : Side) : Socket :=
  (r.spliced? host (x.ends.get side) (x.sockets.get side)).getD (.fresh ⟨r.id, k, a⟩ side)

/-- The nodes that application `a` adds. -/
def addedNodes (r : Resolved D) (a : Nat) : List NodeOrigin :=
  (List.range r.rule.addedVertices.length).map fun k => .created ⟨r.id, k, a⟩

/-- The link that a numbered added edge becomes. -/
def strand (host : Host D) (r : Resolved D) (a : Nat) (x : AddedEdge D × Nat) : Strand :=
  ⟨.created ⟨r.id, x.2, a⟩, ⟨r.socket host a x.2 x.1 .first, r.socket host a x.2 x.1 .second⟩⟩

/-- The links that application `a` adds. -/
def addedLinks (host : Host D) (r : Resolved D) (a : Nat) : List Strand :=
  r.rule.addedEdges.zipIdx.map (r.strand host a)

/-- The endpoint is at a vertex that the batch cuts. -/
def Blocked (batch : List (Resolved D)) (r : Resolved D) : Endpoint → Prop
  | .matched i => ∃ v, r.occurrence.vertices[i]? = some v ∧ CutsVertex batch v
  | .created _ => False

/-- The application adds an edge to a vertex that the batch cuts. -/
def Stale (batch : List (Resolved D)) (r : Resolved D) : Prop :=
  ∃ x ∈ r.rule.addedEdges, ∃ side, r.Blocked batch (x.ends.get side)

end Resolved

/-- The error names the first application of the batch that is stale. -/
def FirstStale (batch : List (Resolved D)) (e : ApplyError) : Prop :=
  ∃ a r, batch[a]? = some r ∧ r.Stale batch ∧
    (∀ a' < a, ∀ r', batch[a']? = some r' → ¬ r'.Stale batch) ∧ e = .stale r.id a

namespace Blueprint

variable (host : Host D) (batch : List (Resolved D))

/-- The host vertices that no application cuts. -/
def hostNodes : List NodeOrigin :=
  (host.vertexIds.filter fun v => ¬ CutsVertex batch v).map .host

/-- The edge is not cut, and neither is a vertex at its ends. -/
def Remains (e : EdgeId) : Prop :=
  ¬ CutsEdge batch e ∧ ∃ record ∈ host.edge? e,
    ¬ CutsVertex batch record.ends.first ∧ ¬ CutsVertex batch record.ends.second

instance (e : EdgeId) : Decidable (Remains host batch e) :=
  inferInstanceAs (Decidable (_ ∧ ∃ record ∈ host.edge? e, _))

/-- The host edges that remain. -/
def hostLinks : List Strand :=
  (host.edgeIds.filter fun e => Remains host batch e).map fun e =>
    ⟨.host e, ⟨.host e .first, .host e .second⟩⟩

def ownerIn : Socket → Option NodeOrigin
  | .host e side => do
    let record ← host.edge? e
    let v := record.ends.get side
    if CutsVertex batch v then none else some (.host v)
  | .fresh p side => do
    let r ← batch[p.application]?
    let x ← r.rule.addedEdges[p.element]?
    if p.rule = r.id ∧ r.spliced? host (x.ends.get side) (x.sockets.get side) = none
    then r.node? p.application (x.ends.get side) else none

/-- The host without what the batch cuts, and what the batch adds. -/
def of : Blueprint where
  nodes := hostNodes host batch ++ batch.zipIdx.flatMap fun x => x.1.addedNodes x.2
  owner := ownerIn host batch
  links := hostLinks host batch ++ batch.zipIdx.flatMap fun x => x.1.addedLinks host x.2

end Blueprint

end Batch

end GraphSplice
