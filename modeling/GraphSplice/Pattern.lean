import GraphSplice.Ascending
import GraphSplice.Graph

/-!
Patterns and what they embed into. A pattern is a number of vertices and a list of edges between
distinct ones. A target is anything with numbered vertices and edges: a host graph, or the
pattern of another rule.
-/

namespace GraphSplice

/-- A caller's label on pattern elements. Symmetries and conflicts keep elements of different
tags apart. -/
abbrev Tag := Nat

inductive Role where
  | kept
  | cut
  | added
  deriving DecidableEq, Repr

def Role.name : Role → String
  | .kept => "Env"
  | .cut => "Cut"
  | .added => "New"

structure Target where
  order : Nat
  neighbors : Nat → List Nat
  edgesBetween : Nat → Nat → List Nat

/-- The vertices next to `v` and different from it, ascending and without repetition. -/
def Target.distinctNeighbors (t : Target) (v : Nat) : List Nat :=
  Ascending.ofList ((t.neighbors v).filter (· ≠ v))

def Graph.asTarget {N E : Type} (g : Graph N E) : Target where
  order := g.order
  neighbors v := (g.neighbors ⟨v⟩).map Handle.slot
  edgesBetween a b := (g.edgesBetween ⟨a⟩ ⟨b⟩).map Handle.slot

structure Pattern where
  order : Nat
  edges : List (Ends Nat)
  deriving DecidableEq, Repr

namespace Pattern

/-- The edges with their positions. -/
def numbered (p : Pattern) : List (Ends Nat × Nat) := p.edges.zipIdx

def incident (p : Pattern) (v : Nat) : List (Ends Nat × Nat) :=
  p.numbered.filter fun e => e.1.Touches v

def degree (p : Pattern) (v : Nat) : Nat := (p.incident v).length

def neighbors (p : Pattern) (v : Nat) : List Nat :=
  (p.incident v).filterMap fun e => e.1.opposite? v

def edgesBetween (p : Pattern) (a b : Nat) : List Nat :=
  (p.numbered.filter fun e => e.1.Joins a b).map (·.2)

def asTarget (p : Pattern) : Target := ⟨p.order, p.neighbors, p.edgesBetween⟩

def distinctNeighbors (p : Pattern) (v : Nat) : List Nat := p.asTarget.distinctNeighbors v

/-- The edge between the positions of its ends in `subset`, if both are there. -/
def localEnds (subset : List Nat) (ends : Ends Nat) : Option (Ends Nat) :=
  match subset.findIdx? (· == ends.first), subset.findIdx? (· == ends.second) with
  | some a, some b => some ⟨a, b⟩
  | _, _ => none

/-- The part of the pattern inside `subset`: vertex `i` of it stands for the `i`-th member, and
each edge comes with the edge that it stands for. -/
def inducedEdges (p : Pattern) (subset : List Nat) : List (Ends Nat × Nat) :=
  p.numbered.filterMap fun e => (localEnds subset e.1).map (·, e.2)

def induced (p : Pattern) (subset : List Nat) : Pattern :=
  ⟨subset.length, (p.inducedEdges subset).map (·.1)⟩

/-- The edges of `p` that the edges of `p.induced subset` stand for, in order. -/
def inducedOrigins (p : Pattern) (subset : List Nat) : List Nat :=
  (p.inducedEdges subset).map (·.2)

theorem length_inducedOrigins (p : Pattern) (subset : List Nat) :
    (p.inducedOrigins subset).length = (p.induced subset).edges.length := by
  simp [inducedOrigins, induced]

end Pattern

end GraphSplice
