import GraphSplice.Application
import GraphSplice.Ascending

/-!
Footprints: what one application relies on and what it removes. Two applications are independent
when neither removes anything that the other touches.
-/

namespace GraphSplice

/-- Sets of handles as ascending lists. An element is read when it is kept, and written when it
is removed, directly or with a removed vertex. -/
structure Footprint where
  verticesRead : List VertexId
  verticesWritten : List VertexId
  edgesRead : List EdgeId
  edgesWritten : List EdgeId
  deriving DecidableEq, Repr

namespace Footprint

def empty : Footprint := ⟨[], [], [], []⟩

variable {D : Domain}

def touchVertex (host : Host D) (f : Footprint) (x : MatchedVertex D × VertexId) : Footprint :=
  if x.1.fate.isCut then
    { f with
      verticesWritten := Ascending.insert x.2 f.verticesWritten
      edgesWritten := Ascending.insertAll f.edgesWritten (host.incident x.2) }
  else { f with verticesRead := Ascending.insert x.2 f.verticesRead }

def touchEdge (f : Footprint) (x : MatchedEdge D × EdgeId) : Footprint :=
  if x.1.fate.isCut then { f with edgesWritten := Ascending.insert x.2 f.edgesWritten }
  else { f with edgesRead := Ascending.insert x.2 f.edgesRead }

/-- The footprint of a resolved application. -/
def of (host : Host D) (r : Resolved D) : Footprint :=
  (r.rule.edges.zip r.occurrence.edges).foldl touchEdge
    ((r.rule.vertices.zip r.occurrence.vertices).foldl (touchVertex host) empty)

def independent (f g : Footprint) : Bool :=
  !(Ascending.meets f.verticesWritten g.verticesWritten ||
    Ascending.meets f.verticesWritten g.verticesRead ||
    Ascending.meets g.verticesWritten f.verticesRead ||
    Ascending.meets f.edgesWritten g.edgesWritten ||
    Ascending.meets f.edgesWritten g.edgesRead ||
    Ascending.meets g.edgesWritten f.edgesRead)

/-- The application removes nothing. -/
def isReadOnly (f : Footprint) : Bool := f.verticesWritten.isEmpty && f.edgesWritten.isEmpty

end Footprint

end GraphSplice
