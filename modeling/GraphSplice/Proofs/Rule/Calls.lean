import GraphSplice.Rule.Declaration

/-!
Declarations as calls on a draft. Some of a sequence are accepted and the others refused; the draft
is the one that the accepted calls alone leave, and all of these are accepted on their own.
-/

namespace GraphSplice

variable {D : Domain}

/-- What a call that declares an edge says of it. -/
structure EdgeCall where
  role : Role
  tag : Tag
  ends : Ends Nat
  sockets : Ends (Option Nat)

namespace Declaration

/-- The role and tag of the vertex that the call declares. -/
def vertex? : Declaration D → Option (Role × Tag)
  | .keepVertex tag => some (.kept, tag)
  | .cutVertex tag => some (.cut, tag)
  | .addVertex tag => some (.added, tag)
  | _ => none

/-- What the call says of the edge that it declares. -/
def edge? : Declaration D → Option EdgeCall
  | .keepEdge a b tag => some ⟨.kept, tag, ⟨a, b⟩, ⟨none, none⟩⟩
  | .cutEdge a b tag => some ⟨.cut, tag, ⟨a, b⟩, ⟨none, none⟩⟩
  | .addEdge a b socketA socketB tag => some ⟨.added, tag, ⟨a, b⟩, ⟨socketA, socketB⟩⟩
  | _ => none

end Declaration

/-- The vertices that the calls declare, in order. -/
def vertexCalls (calls : List (Declaration D)) : List (Role × Tag) := calls.filterMap (·.vertex?)

/-- The edges that the calls declare, in order. -/
def edgeCalls (calls : List (Declaration D)) : List EdgeCall := calls.filterMap (·.edge?)

namespace Draft

def VertexDecl.call : VertexDecl D → Role × Tag
  | .matched vertex => (vertex.fate.role, vertex.tag)
  | .added vertex => (.added, vertex.tag)

def EdgeDecl.call : EdgeDecl D → EdgeCall
  | .matched edge => ⟨edge.fate.role, edge.tag, edge.ends, ⟨none, none⟩⟩
  | .added tag ends sockets _ => ⟨.added, tag, ends, sockets⟩

theorem VertexDecl.role_eq (decl : VertexDecl D) : decl.role = decl.call.1 := by
  cases decl <;> rfl

theorem EdgeDecl.role_eq (decl : EdgeDecl D) : decl.role = decl.call.role := by
  cases decl <;> rfl

/-- The calls that are accepted, each on the draft that those before it leave. -/
def accepted (d : Draft D) : List (Declaration D) → List (Declaration D)
  | [] => []
  | x :: rest =>
    match (d.declare x).result with
    | .ok _ => x :: (d.declare x).draft.accepted rest
    | .error _ => d.accepted rest

variable {d : Draft D}

theorem accepted_cons_ok {x : Declaration D} {number : Option Nat}
    (h : (d.declare x).result = .ok number) (rest : List (Declaration D)) :
    d.accepted (x :: rest) = x :: (d.declare x).draft.accepted rest := by
  rw [accepted, h]

theorem accepted_cons_error {x : Declaration D} {e : DraftError}
    (h : (d.declare x).result = .error e) (rest : List (Declaration D)) :
    d.accepted (x :: rest) = d.accepted rest := by
  rw [accepted, h]

theorem declareAll_cons (d : Draft D) (x : Declaration D) (rest : List (Declaration D)) :
    d.declareAll (x :: rest) = (d.declare x).draft.declareAll rest := rfl

/-- Refused calls leave no trace. -/
theorem declareAll_accepted (d : Draft D) (calls : List (Declaration D)) :
    d.declareAll (d.accepted calls) = d.declareAll calls := by
  induction calls generalizing d with
  | nil => rfl
  | cons x rest ih =>
    cases outcome : (d.declare x).result with
    | ok number => rw [accepted_cons_ok outcome, declareAll_cons, declareAll_cons, ih]
    | error e =>
      rw [accepted_cons_error outcome, declareAll_cons, draft_declare_of_error outcome, ih]

/-- What is accepted among others is accepted without them. -/
theorem accepted_accepted (d : Draft D) (calls : List (Declaration D)) :
    d.accepted (d.accepted calls) = d.accepted calls := by
  induction calls generalizing d with
  | nil => rfl
  | cons x rest ih =>
    cases outcome : (d.declare x).result with
    | ok number => rw [accepted_cons_ok outcome, accepted_cons_ok outcome, ih]
    | error e => rw [accepted_cons_error outcome, ih]

/-- Vertices are never refused. -/
theorem vertexCalls_accepted (d : Draft D) (calls : List (Declaration D)) :
    vertexCalls (d.accepted calls) = vertexCalls calls := by
  induction calls generalizing d with
  | nil => rfl
  | cons x rest ih =>
    unfold vertexCalls at ih ⊢
    cases outcome : (d.declare x).result with
    | ok number => rw [accepted_cons_ok outcome, List.filterMap_cons, List.filterMap_cons, ih]
    | error e =>
      have other : x.vertex? = none := by
        cases x with
        | keepVertex | cutVertex | addVertex => cases outcome
        | named | keepEdge | cutEdge | addEdge | checkVertex | checkEdge | onRemoveVertex
          | onRemoveEdge | onCreateVertex | onCreateEdge => rfl
      rw [accepted_cons_error outcome, ih, List.filterMap_cons_none other]

end Draft

end GraphSplice
