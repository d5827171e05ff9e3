import GraphSplice.Script.Condition

/-!
The domain of scripted rules over numbers. Payloads are 64-bit integers whose arithmetic wraps;
the state of matching is a record of the predicate calls, and the state of construction a record
of what was removed and created. Callbacks on created elements are lists of actions.
-/

namespace GraphSplice.Script

/-- An element removed or created, as its callback saw it: the rule, the number of its
declaration and the occurrence come with it. -/
inductive Happening where
  | vertexRemoved (v : VertexId) (payload : Int64)
  | edgeRemoved (e : EdgeId) (payload : Int64)
  | vertexCreated (v : VertexId) (index : StableIndex) (payload : Int64)
  | edgeCreated (e : EdgeId) (index : StableIndex) (payload : Int64) (ends : Ends VertexId)

structure Note where
  rule : RuleId
  declaration : Nat
  occurrence : Occurrence
  happening : Happening

/-- The predicate calls made, latest first, and their number. -/
structure CallRecord where
  count : Nat
  calls : List String
  deriving DecidableEq, Repr

def CallRecord.empty : CallRecord := ⟨0, []⟩

/-- The calls in the order in which they were made. -/
def CallRecord.inOrder (r : CallRecord) : List String := r.calls.reverse

abbrev numbers : Domain := ⟨Int64, Int64, CallRecord, List Note, 0, 0⟩

def numbersView : View numbers where
  nodeValue n := n.toInt
  arcValue n := n.toInt
  calls s := s.count + 1
  record call s := ⟨s.count + 1, call :: s.calls⟩

inductive Action where
  /-- The payload becomes a number. -/
  | set (k : Int64)
  /-- The payload becomes the sum of the host payloads of the bound vertices. -/
  | sum
  /-- The payload of a vertex becomes its degree. -/
  | degree
  /-- The payload of an edge becomes the sum of the payloads of its ends. -/
  | ends
  /-- A vertex is added and joined to the created vertex, or to the first end of the created
  edge. -/
  | spawn (k : Int64)
  /-- A number is added to the payload of what became of a bound vertex. -/
  | poke (i : Nat) (k : Int64)
  deriving DecidableEq

abbrev Output := Host numbers

def payloadAt (g : Output) (v : VertexId) : Int64 := ((g.vertex? v).map (·.payload)).getD 0

def boundSum (context : BuildContext numbers) : Int64 :=
  (context.occurrence.vertices.map (payloadAt context.host)).foldl (· + ·) 0

/-- Adds a vertex and an edge to it, both with payload `k`. -/
def spawnAt (k : Int64) (v : VertexId) (g : Output) : Output :=
  let spawned := g.nextVertex
  match (g.addVertex k).addEdge v spawned k with
  | .ok grown => grown
  | .error _ => g

def pokeBound (context : BuildContext numbers) (i : Nat) (k : Int64) (g : Output) : Output :=
  let found := do
    let v ← context.occurrence.vertices[i]?
    let record ← context.host.vertex? v
    g.findVertex? record.index
  match found with
  | none => g
  | some v => g.modifyVertex v (· + k)

namespace Action

def onVertex (context : BuildContext numbers) (v : VertexId) (g : Output) : Action → Output
  | set k => g.modifyVertex v fun _ => k
  | sum => g.modifyVertex v fun _ => boundSum context
  | degree => g.modifyVertex v fun _ => Int64.ofNat (g.degree v)
  | ends => g
  | spawn k => spawnAt k v g
  | poke i k => pokeBound context i k g

def onEdge (context : BuildContext numbers) (e : EdgeId) (g : Output) : Action → Output
  | set k => g.modifyEdge e fun _ => k
  | sum => g.modifyEdge e fun _ => boundSum context
  | degree => g
  | ends =>
    match g.edge? e with
    | none => g
    | some r =>
      g.modifyEdge e fun _ => payloadAt g r.ends.first + payloadAt g r.ends.second
  | spawn k =>
    match g.edge? e with
    | none => g
    | some r => spawnAt k r.ends.first g
  | poke i k => pokeBound context i k g

end Action

/-! ## Callbacks of rules -/

def note (context : BuildContext numbers) (decl : Nat) (happening : Happening) : Note :=
  ⟨context.rule, decl, context.occurrence, happening⟩

def noteRemovedVertex (decl : Nat) : VertexRemoval numbers := fun context v notes =>
  match context.host.vertex? v with
  | none => notes
  | some r => notes ++ [note context decl (.vertexRemoved v r.payload)]

def noteRemovedEdge (decl : Nat) : EdgeRemoval numbers := fun context e notes =>
  match context.host.edge? e with
  | none => notes
  | some r => notes ++ [note context decl (.edgeRemoved e r.payload)]

def createVertex (decl : Nat) (actions : List Action) : VertexCreation numbers :=
  fun context v (g, notes) =>
    match g.vertex? v with
    | none => (g, notes)
    | some r =>
      (actions.foldl (Action.onVertex context v) g,
        notes ++ [note context decl (.vertexCreated v r.index r.payload)])

def createEdge (decl : Nat) (actions : List Action) : EdgeCreation numbers :=
  fun context e (g, notes) =>
    match g.edge? e with
    | none => (g, notes)
    | some r =>
      (actions.foldl (Action.onEdge context e) g,
        notes ++ [note context decl (.edgeCreated e r.index r.payload r.ends)])

end GraphSplice.Script
