import GraphSplice.Graph

/-!
Graphs of common shape. Vertices are added in order, so vertex `i` of a description has handle
`i`; all payloads are the two given ones.
-/

namespace GraphSplice.Graph

universe u v
variable {N : Type u} {E : Type v}

/-- A position that names no vertex stands for the unused handle, which every graph refuses. -/
def place (n i : Nat) : VertexId := if i < n then ⟨i⟩ else .unused

def ofEdges (vertex : N) (edge : E) (n : Nat) (edges : List (Nat × Nat)) :
    Except GraphError (Graph N E) :=
  let bare : Graph N E := (List.range n).foldl (fun g _ => g.addVertex vertex) empty
  edges.foldlM (fun g (a, b) => g.addEdge (place n a) (place n b) edge) bare

namespace Shape

def path (n : Nat) : List (Nat × Nat) := (List.range (n - 1)).map fun i => (i, i + 1)

/-- Fewer than three vertices give a path. -/
def cycle (n : Nat) : List (Nat × Nat) := path n ++ if 3 ≤ n then [(n - 1, 0)] else []

def complete (n : Nat) : List (Nat × Nat) :=
  (List.range n).flatMap fun a => (List.range (n - (a + 1))).map fun i => (a, a + 1 + i)

/-- A hub at position 0 and the leaves after it. -/
def star (leaves : Nat) : List (Nat × Nat) := (List.range leaves).map fun i => (0, i + 1)

/-- The rows of a lattice one after the other; at each point the edge to the right comes before
the edge below. -/
def grid (width height : Nat) : List (Nat × Nat) :=
  let at' (x y : Nat) : Nat := y * width + x
  (List.range height).flatMap fun y => (List.range width).flatMap fun x =>
    (if x + 1 < width then [(at' x y, at' (x + 1) y)] else []) ++
      if y + 1 < height then [(at' x y, at' x (y + 1))] else []

end Shape

variable (vertex : N) (edge : E)

def path (n : Nat) : Except GraphError (Graph N E) := ofEdges vertex edge n (Shape.path n)

def cycle (n : Nat) : Except GraphError (Graph N E) := ofEdges vertex edge n (Shape.cycle n)

def complete (n : Nat) : Except GraphError (Graph N E) := ofEdges vertex edge n (Shape.complete n)

def star (leaves : Nat) : Except GraphError (Graph N E) :=
  ofEdges vertex edge (leaves + 1) (Shape.star leaves)

def grid (width height : Nat) : Except GraphError (Graph N E) :=
  ofEdges vertex edge (width * height) (Shape.grid width height)

end GraphSplice.Graph
