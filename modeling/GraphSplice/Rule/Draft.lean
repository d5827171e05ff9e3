import GraphSplice.Rule

/-!
Drafts of rules. Vertices and edges are declared one by one and named by the order of their
declaration; a refused declaration leaves the draft as it was. A draft with at least one vertex
compiles to a rule, in which matched and added elements are numbered apart.
-/

namespace GraphSplice

/-- The three families of callbacks on an element. -/
inductive CallbackFamily where
  | check
  | removal
  | creation
  deriving DecidableEq, Repr

def CallbackFamily.name : CallbackFamily → String
  | .check => "check"
  | .removal => "remove"
  | .creation => "create"

inductive DraftError where
  | empty
  | unknownVertex (vertex : Nat)
  | unknownEdge (edge : Nat)
  | selfLoop (vertex : Nat)
  | notMatchable (vertex : Nat)
  | cutEndpoint (vertex : Nat)
  | invalidSocket (edge vertex : Nat)
  | misplacedCallback (family : CallbackFamily) (role : Role)
  deriving DecidableEq, Repr

def DraftError.message : DraftError → String
  | empty => "rule declares no vertices"
  | unknownVertex vertex => "unknown vertex " ++ toString vertex
  | unknownEdge edge => "unknown edge " ++ toString edge
  | selfLoop vertex => "self-loop on vertex " ++ toString vertex
  | notMatchable vertex => "vertex " ++ toString vertex ++ " is New and cannot be matched"
  | cutEndpoint vertex => "new edge cannot attach to cut vertex " ++ toString vertex
  | invalidSocket edge vertex =>
    "edge " ++ toString edge ++ " is not a cut edge incident to vertex " ++ toString vertex
  | misplacedCallback family role =>
    family.name ++ " callback does not apply to a " ++ role.name ++ " element"

namespace Draft

inductive VertexDecl (D : Domain) where
  | matched (vertex : MatchedVertex D)
  | added (vertex : AddedVertex D)

def VertexDecl.role {D : Domain} : VertexDecl D → Role
  | .matched vertex => vertex.fate.role
  | .added _ => .added

/-- Ends and sockets are declared vertices and edges. -/
inductive EdgeDecl (D : Domain) where
  | matched (edge : MatchedEdge D)
  | added (tag : Tag) (ends : Ends Nat) (sockets : Ends (Option Nat))
    (creation : Option (EdgeCreation D))

def EdgeDecl.role {D : Domain} : EdgeDecl D → Role
  | .matched edge => edge.fate.role
  | .added .. => .added

end Draft

structure Draft (D : Domain) where
  name : Option String
  vertices : Array (Draft.VertexDecl D)
  edges : Array (Draft.EdgeDecl D)

namespace Draft

variable {D : Domain}

def empty : Draft D := ⟨none, #[], #[]⟩

def named (d : Draft D) (name : String) : Draft D := { d with name := some name }

/-! ## Vertices -/

/-- The number that the next declared vertex takes. -/
def nextVertex (d : Draft D) : Nat := d.vertices.size

/-- The number that the next declared edge takes. -/
def nextEdge (d : Draft D) : Nat := d.edges.size

def declareVertex (d : Draft D) (vertex : VertexDecl D) : Draft D :=
  { d with vertices := d.vertices.push vertex }

def keepVertex (d : Draft D) (tag : Tag) : Draft D :=
  d.declareVertex (.matched ⟨tag, none, .kept⟩)

def cutVertex (d : Draft D) (tag : Tag) : Draft D :=
  d.declareVertex (.matched ⟨tag, none, .cut none⟩)

def addVertex (d : Draft D) (tag : Tag) : Draft D := d.declareVertex (.added ⟨tag, none⟩)

def vertexRole (d : Draft D) (vertex : Nat) : Except DraftError Role :=
  match d.vertices[vertex]? with
  | none => .error (.unknownVertex vertex)
  | some decl => .ok decl.role

/-! ## Edges -/

def refuseAdded (d : Draft D) (vertex : Nat) : Except DraftError Unit := do
  match ← d.vertexRole vertex with
  | .added => .error (.notMatchable vertex)
  | _ => .ok ()

def refuseCut (d : Draft D) (vertex : Nat) : Except DraftError Unit := do
  match ← d.vertexRole vertex with
  | .cut => .error (.cutEndpoint vertex)
  | _ => .ok ()

def refuseLoop (ends : Ends Nat) : Except DraftError Unit :=
  if ends.first = ends.second then .error (.selfLoop ends.first) else .ok ()

/-- A matched edge joins two distinct matched vertices. -/
def checkMatchedEnds (d : Draft D) (ends : Ends Nat) : Except DraftError Unit := do
  d.refuseAdded ends.first
  d.refuseAdded ends.second
  refuseLoop ends

/-- An edge is spliced at a vertex only into the socket of a cut edge that ends there. -/
def checkSocket (d : Draft D) (vertex : Nat) : Option Nat → Except DraftError Unit
  | none => .ok ()
  | some edge => do
    d.refuseAdded vertex
    match d.edges[edge]? with
    | none => .error (.unknownEdge edge)
    | some (.added ..) => .error (.invalidSocket edge vertex)
    | some (.matched decl) =>
      if decl.fate.isCut ∧ decl.ends.Touches vertex then .ok ()
      else .error (.invalidSocket edge vertex)

/-- An added edge joins two distinct vertices, none of them cut. -/
def checkAddedEnds (d : Draft D) (ends : Ends Nat) (sockets : Ends (Option Nat)) :
    Except DraftError Unit := do
  d.refuseCut ends.first
  d.refuseCut ends.second
  refuseLoop ends
  d.checkSocket ends.first sockets.first
  d.checkSocket ends.second sockets.second

def declareEdge (d : Draft D) (edge : EdgeDecl D) : Draft D := { d with edges := d.edges.push edge }

def keepEdge (d : Draft D) (a b : Nat) (tag : Tag) : Except DraftError (Draft D) := do
  d.checkMatchedEnds ⟨a, b⟩
  return d.declareEdge (.matched ⟨tag, ⟨a, b⟩, none, .kept⟩)

def cutEdge (d : Draft D) (a b : Nat) (tag : Tag) : Except DraftError (Draft D) := do
  d.checkMatchedEnds ⟨a, b⟩
  return d.declareEdge (.matched ⟨tag, ⟨a, b⟩, none, .cut none⟩)

/-- A socket names a cut edge at its end; the added edge then takes over the connection point
that the cut edge leaves there. -/
def addEdge (d : Draft D) (a b : Nat) (socketA socketB : Option Nat) (tag : Tag) :
    Except DraftError (Draft D) := do
  d.checkAddedEnds ⟨a, b⟩ ⟨socketA, socketB⟩
  return d.declareEdge (.added tag ⟨a, b⟩ ⟨socketA, socketB⟩ none)

/-! ## Callbacks -/

def putVertex (d : Draft D) (vertex : Nat) (decl : VertexDecl D) : Draft D :=
  { d with vertices := d.vertices.setIfInBounds vertex decl }

def putEdge (d : Draft D) (edge : Nat) (decl : EdgeDecl D) : Draft D :=
  { d with edges := d.edges.setIfInBounds edge decl }

def checkVertex (d : Draft D) (vertex : Nat) (check : VertexCheck D) :
    Except DraftError (Draft D) :=
  match d.vertices[vertex]? with
  | none => .error (.unknownVertex vertex)
  | some (.added _) => .error (.misplacedCallback .check .added)
  | some (.matched decl) => .ok (d.putVertex vertex (.matched { decl with check := some check }))

def onRemoveVertex (d : Draft D) (vertex : Nat) (removal : VertexRemoval D) :
    Except DraftError (Draft D) :=
  match d.vertices[vertex]? with
  | none => .error (.unknownVertex vertex)
  | some (.added _) => .error (.misplacedCallback .removal .added)
  | some (.matched decl) =>
    match decl.fate with
    | .kept => .error (.misplacedCallback .removal .kept)
    | .cut _ => .ok (d.putVertex vertex (.matched { decl with fate := .cut (some removal) }))

def onCreateVertex (d : Draft D) (vertex : Nat) (creation : VertexCreation D) :
    Except DraftError (Draft D) :=
  match d.vertices[vertex]? with
  | none => .error (.unknownVertex vertex)
  | some (.matched decl) => .error (.misplacedCallback .creation decl.fate.role)
  | some (.added decl) => .ok (d.putVertex vertex (.added { decl with creation := some creation }))

def checkEdge (d : Draft D) (edge : Nat) (check : EdgeCheck D) : Except DraftError (Draft D) :=
  match d.edges[edge]? with
  | none => .error (.unknownEdge edge)
  | some (.added ..) => .error (.misplacedCallback .check .added)
  | some (.matched decl) => .ok (d.putEdge edge (.matched { decl with check := some check }))

def onRemoveEdge (d : Draft D) (edge : Nat) (removal : EdgeRemoval D) :
    Except DraftError (Draft D) :=
  match d.edges[edge]? with
  | none => .error (.unknownEdge edge)
  | some (.added ..) => .error (.misplacedCallback .removal .added)
  | some (.matched decl) =>
    match decl.fate with
    | .kept => .error (.misplacedCallback .removal .kept)
    | .cut _ => .ok (d.putEdge edge (.matched { decl with fate := .cut (some removal) }))

def onCreateEdge (d : Draft D) (edge : Nat) (creation : EdgeCreation D) :
    Except DraftError (Draft D) :=
  match d.edges[edge]? with
  | none => .error (.unknownEdge edge)
  | some (.matched decl) => .error (.misplacedCallback .creation decl.fate.role)
  | some (.added tag ends sockets _) =>
    .ok (d.putEdge edge (.added tag ends sockets (some creation)))

/-! ## Compilation -/

def matchedVertices (d : Draft D) : List (MatchedVertex D) :=
  d.vertices.toList.filterMap fun
    | .matched vertex => some vertex
    | .added _ => none

def addedVertices (d : Draft D) : List (AddedVertex D) :=
  d.vertices.toList.filterMap fun
    | .matched _ => none
    | .added vertex => some vertex

/-- Where a declared vertex is found in the rule: among its own sort, after those declared
before it. -/
def endpoint? (d : Draft D) (vertex : Nat) : Option Endpoint :=
  let before := d.vertices.toList.take vertex
  d.vertices[vertex]?.map fun
    | .matched _ => .matched (before.countP (·.role ≠ .added))
    | .added _ => .created (before.countP (·.role = .added))

def matchedSlot (d : Draft D) (vertex : Nat) : Except DraftError Nat :=
  match d.endpoint? vertex with
  | none => .error (.unknownVertex vertex)
  | some (.matched i) => .ok i
  | some (.created _) => .error (.notMatchable vertex)

def endpoint (d : Draft D) (vertex : Nat) : Except DraftError Endpoint :=
  match d.endpoint? vertex with
  | none => .error (.unknownVertex vertex)
  | some x => .ok x

/-- Where a declared matched edge is found in the rule. -/
def edgeSlot? (d : Draft D) (edge : Nat) : Option Nat :=
  match d.edges[edge]? with
  | some (.matched _) => some ((d.edges.toList.take edge).countP (·.role ≠ .added))
  | _ => none

def matchedEdges (d : Draft D) : Except DraftError (List (MatchedEdge D)) :=
  (d.edges.toList.filterMap fun
    | .matched edge => some edge
    | .added .. => none).mapM fun edge => do
      let first ← d.matchedSlot edge.ends.first
      let second ← d.matchedSlot edge.ends.second
      return { edge with ends := ⟨first, second⟩ }

def addedEdges (d : Draft D) : Except DraftError (List (AddedEdge D)) :=
  (d.edges.toList.filterMap fun
    | .matched _ => none
    | .added tag ends sockets creation => some (tag, ends, sockets, creation)).mapM
      fun (tag, ends, sockets, creation) => do
        let first ← d.endpoint ends.first
        let second ← d.endpoint ends.second
        return ⟨tag, ⟨first, second⟩, sockets.map (·.bind d.edgeSlot?), creation⟩

end Draft

namespace Rule

variable {D : Domain}

def sketch (vertices : List (MatchedVertex D)) (edges : List (MatchedEdge D))
    (addedVertices : List (AddedVertex D)) (addedEdges : List (AddedEdge D)) : Symmetry.Sketch :=
  ⟨vertices.map fun v => ⟨v.fate.role, v.tag⟩, edges.map fun e => ⟨e.fate.role, e.tag, e.ends⟩,
    addedVertices.map (·.tag), addedEdges.map fun e => ⟨e.tag, e.ends, e.sockets⟩⟩

end Rule

/-- The rule that a draft describes, under the given identity and whole-match predicate. -/
def Draft.compile {D : Domain} (d : Draft D) (id : RuleId) (accepts : Option (OccurrenceCheck D)) :
    Except DraftError (Rule D) :=
  if d.vertices.isEmpty then .error .empty
  else do
    let edges ← d.matchedEdges
    let addedEdges ← d.addedEdges
    return {
      id := id
      name := d.name
      vertices := d.matchedVertices
      edges := edges
      addedVertices := d.addedVertices
      addedEdges := addedEdges
      symmetries := (Rule.sketch d.matchedVertices edges d.addedVertices addedEdges).symmetries
      accepts := accepts }

end GraphSplice
