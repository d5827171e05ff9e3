import GraphSplice.Rule

/-!
Applications: a rule together with an occurrence chosen for it. An application is resolved
against the rules and the host before anything is done; missing edges are then bound to the first
host edges, not yet bound, between the bound vertices.
-/

namespace GraphSplice

structure Application where
  rule : RuleId
  occurrence : Occurrence
  deriving DecidableEq, Repr

inductive ApplyError where
  | unknownRule (rule : RuleId)
  | vertexArity (rule : RuleId) (expected found : Nat)
  | edgeArity (rule : RuleId) (expected found : Nat)
  | unknownVertex (v : VertexId)
  | unknownEdge (e : EdgeId)
  | missingEdge (rule : RuleId) (edge : Nat)
  | stale (rule : RuleId) (application : Nat)
  | oddCycle (sockets : Nat)
  | malformedSocket (attachments links : Nat)
  | graph (e : GraphError)
  deriving DecidableEq, Repr

namespace ApplyError

def message : ApplyError → String
  | unknownRule rule => "unknown rule " ++ ruleLabel rule
  | vertexArity rule expected found =>
    ruleLabel rule ++ " expects " ++ toString expected ++ " matched vertices, got " ++
      toString found
  | edgeArity rule expected found =>
    ruleLabel rule ++ " expects " ++ toString expected ++ " matched edges, got " ++ toString found
  | unknownVertex v => "unknown host vertex " ++ v.text
  | unknownEdge e => "unknown host edge " ++ e.text
  | missingEdge rule edge =>
    ruleLabel rule ++ ": no host edge for pattern edge " ++ toString edge
  | stale rule application =>
    ruleLabel rule ++ ": application " ++ toString application ++
      " uses an element removed by another application"
  | oddCycle sockets =>
    "spliced edges close an odd cycle through " ++ toString sockets ++ " ports"
  | malformedSocket attachments links =>
    "malformed port: " ++ toString attachments ++ " attachments, " ++ toString links ++ " links"
  | graph e => e.message

end ApplyError

variable {D : Domain}

/-- An application whose rule exists and whose occurrence is complete. -/
structure Resolved (D : Domain) where
  rule : Rule D
  occurrence : Occurrence

namespace Resolved

def id (r : Resolved D) : RuleId := r.rule.id

def context (r : Resolved D) (host : Host D) : BuildContext D := ⟨host, r.occurrence, r.id⟩

end Resolved

namespace Rule

/-- The host vertices at the ends of a matched edge. -/
def boundEnds? (edge : MatchedEdge D) (vertices : List VertexId) : Option (Ends VertexId) :=
  match vertices[edge.ends.first]?, vertices[edge.ends.second]? with
  | some a, some b => some ⟨a, b⟩
  | _, _ => none

/-- Binds the matched edges, in order, each to the first host edge between the bound vertices
that is not bound yet. -/
def chooseEdges (r : Rule D) (host : Host D) (vertices : List VertexId) :
    Except ApplyError (List EdgeId) :=
  r.edges.zipIdx.foldlM (fun chosen x =>
    let free? := (boundEnds? x.1 vertices).bind fun ends =>
      (host.edgesBetween ends.first ends.second).find? (· ∉ chosen)
    match free? with
    | none => .error (.missingEdge r.id x.2)
    | some e => .ok (chosen ++ [e])) []

/-- Each bound edge exists and joins the vertices bound to the ends of its matched edge. -/
def checkEdges (r : Rule D) (host : Host D) (vertices : List VertexId) (edges : List EdgeId) :
    Except ApplyError Unit :=
  (r.edges.zip edges).zipIdx.forM fun x =>
    match host.edge? x.1.2 with
    | none => .error (.unknownEdge x.1.2)
    | some record =>
      if (boundEnds? x.1.1 vertices).any fun ends => record.ends.Joins ends.first ends.second
      then .ok ()
      else .error (.missingEdge r.id x.2)

def bindEdges (r : Rule D) (host : Host D) (o : Occurrence) : Except ApplyError (List EdgeId) :=
  if o.edges = [] ∧ r.edges.length ≠ 0 then r.chooseEdges host o.vertices
  else if o.edges.length = r.edges.length then do
    r.checkEdges host o.vertices o.edges
    return o.edges
  else .error (.edgeArity r.id r.edges.length o.edges.length)

def resolve (r : Rule D) (host : Host D) (o : Occurrence) : Except ApplyError (Resolved D) :=
  if o.vertices.length ≠ r.vertices.length then
    .error (.vertexArity r.id r.vertices.length o.vertices.length)
  else
    match o.vertices.find? fun v => ¬ host.Contains v with
    | some v => .error (.unknownVertex v)
    | none => do
      let edges ← r.bindEdges host o
      return ⟨r, ⟨o.vertices, edges⟩⟩

end Rule

/-- Validates an application against the registered rules and the host. -/
def Application.resolve (app : Application) (rules : Array (Rule D)) (host : Host D) :
    Except ApplyError (Resolved D) :=
  match rules[app.rule.slot]? with
  | none => .error (.unknownRule app.rule)
  | some rule => rule.resolve host app.occurrence

end GraphSplice
