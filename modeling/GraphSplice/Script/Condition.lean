import GraphSplice.Domain

/-!
Predicates as data: comparisons of quantities with numbers, under the usual connectives. A
conjunction stops at its first false part and a disjunction at its first true one; evaluation has
no effects, so only the result is told.
-/

namespace GraphSplice.Script

inductive Comparison where
  | eq
  | ne
  | lt
  | le
  | gt
  | ge
  /-- A multiple of the number, which is not zero. -/
  | multiple
  deriving DecidableEq, Repr

def Comparison.holds (value bound : Int) : Comparison → Bool
  | eq => value = bound
  | ne => value ≠ bound
  | lt => value < bound
  | le => value ≤ bound
  | gt => value > bound
  | ge => value ≥ bound
  | multiple => bound ≠ 0 ∧ value % bound = 0

inductive Condition (α : Type) where
  | constant (b : Bool)
  | all (parts : List (Condition α))
  | any (parts : List (Condition α))
  | negation (part : Condition α)
  | leaf (x : α)

namespace Condition

variable {α : Type}

mutual

def eval (test : α → Bool) : Condition α → Bool
  | constant b => b
  | all parts => evalAll test parts
  | any parts => evalAny test parts
  | negation part => !eval test part
  | leaf x => test x

def evalAll (test : α → Bool) : List (Condition α) → Bool
  | [] => true
  | part :: rest => eval test part && evalAll test rest

def evalAny (test : α → Bool) : List (Condition α) → Bool
  | [] => false
  | part :: rest => eval test part || evalAny test rest

end

end Condition

inductive VertexQuantity where
  | payload
  | degree
  | incident
  | neighbors
  | index
  | id
  | calls
  | rule
  deriving DecidableEq, Repr

inductive EdgeQuantity where
  | payload
  | index
  | id
  | firstEnd
  | secondEnd
  | calls
  | rule
  deriving DecidableEq, Repr

structure VertexTest where
  quantity : VertexQuantity
  comparison : Comparison
  bound : Int
  deriving DecidableEq, Repr

structure EdgeTest where
  quantity : EdgeQuantity
  comparison : Comparison
  bound : Int
  deriving DecidableEq, Repr

/-- A test of a whole occurrence. One that refers to an element that is not bound fails. -/
inductive OccurrenceTest where
  | vertex (i : Nat) (test : VertexTest)
  | edge (j : Nat) (test : EdgeTest)
  | less (i j : Nat) (quantity : VertexQuantity)
  | calls (comparison : Comparison) (bound : Int)
  deriving DecidableEq, Repr

/-- How a script sees a domain: the numbers that payloads stand for, the number of predicate calls
made before, and how a call is written down. -/
structure View (D : Domain) where
  nodeValue : D.Node → Int
  arcValue : D.Arc → Int
  /-- The ordinal of the present call. -/
  calls : D.MatchState → Int
  record : String → D.MatchState → D.MatchState

namespace View

variable {D : Domain}

/-- A view under which payloads and calls are zero and nothing is written down. -/
def blind : View D := ⟨fun _ => 0, fun _ => 0, fun _ => 0, fun _ s => s⟩

def vertexValue? (view : View D) (context : MatchContext D) (s : D.MatchState) (v : VertexId)
    (quantity : VertexQuantity) : Option Int :=
  (context.host.vertex? v).map fun r =>
    match quantity with
    | .payload => view.nodeValue r.payload
    | .degree => context.host.degree v
    | .incident => (context.host.incident v).length
    | .neighbors => (context.host.neighbors v).length
    | .index => r.index.toNat
    | .id => v.slot
    | .calls => view.calls s
    | .rule => context.rule.slot

def edgeValue? (view : View D) (context : MatchContext D) (s : D.MatchState) (e : EdgeId)
    (quantity : EdgeQuantity) : Option Int :=
  (context.host.edge? e).map fun r =>
    match quantity with
    | .payload => view.arcValue r.payload
    | .index => r.index.toNat
    | .id => e.slot
    | .firstEnd => r.ends.first.slot
    | .secondEnd => r.ends.second.slot
    | .calls => view.calls s
    | .rule => context.rule.slot

def testVertex (view : View D) (context : MatchContext D) (s : D.MatchState) (v : VertexId)
    (test : VertexTest) : Bool :=
  (view.vertexValue? context s v test.quantity).any fun x => test.comparison.holds x test.bound

def testEdge (view : View D) (context : MatchContext D) (s : D.MatchState) (e : EdgeId)
    (test : EdgeTest) : Bool :=
  (view.edgeValue? context s e test.quantity).any fun x => test.comparison.holds x test.bound

def testOccurrence (view : View D) (context : MatchContext D) (s : D.MatchState) (o : Occurrence) :
    OccurrenceTest → Bool
  | .vertex i test => (o.vertices[i]?).any fun v => view.testVertex context s v test
  | .edge j test => (o.edges[j]?).any fun e => view.testEdge context s e test
  | .less i j quantity =>
    let value? (k : Nat) : Option Int :=
      (o.vertices[k]?).bind fun v => view.vertexValue? context s v quantity
    match value? i, value? j with
    | some x, some y => x < y
    | _, _ => false
  | .calls comparison bound => comparison.holds (view.calls s) bound

/-! ## Predicates of rules -/

/-- Writes a call with its result down. -/
def answer (view : View D) (call : String) (result : Bool) (s : D.MatchState) :
    Bool × D.MatchState :=
  (result, view.record (call ++ if result then "=1" else "=0") s)

/-- The predicate of the vertex declared at `decl`. -/
def vertexCheck (view : View D) (decl : Nat) (c : Condition VertexTest) : VertexCheck D :=
  fun context v s =>
    view.answer ("n" ++ toString decl ++ "@" ++ toString v.slot)
      (c.eval (view.testVertex context s v)) s

/-- The predicate of the edge declared at `decl`. -/
def edgeCheck (view : View D) (decl : Nat) (c : Condition EdgeTest) : EdgeCheck D :=
  fun context e s =>
    view.answer ("e" ++ toString decl ++ "@" ++ toString e.slot)
      (c.eval (view.testEdge context s e)) s

def listed {kind : Kind} (handles : List (Handle kind)) : String :=
  ",".intercalate (handles.map fun h => toString h.slot)

def occurrenceCheck (view : View D) (c : Condition OccurrenceTest) : OccurrenceCheck D :=
  fun context o s =>
    view.answer ("m" ++ listed o.vertices ++ "/" ++ listed o.edges)
      (c.eval (view.testOccurrence context s o)) s

end View

end GraphSplice.Script
