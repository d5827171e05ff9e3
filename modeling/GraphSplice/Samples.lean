import GraphSplice.Grammar

/-!
Rules that change the structure of a graph and nothing else, each as a draft over the domain
without content. All tags are 0.
-/

namespace GraphSplice.Samples

abbrev Sketch := Except DraftError (Draft .plain)

def start (name : String) : Draft .plain := Draft.empty.named name

/-- An edge becomes a path of two: the new vertex takes over both sockets of the cut edge. -/
def edgeSubdivision : Sketch := do
  let d ← (((start "edge-subdivision").keepVertex 0).keepVertex 0).cutEdge 0 1 0
  let d ← (d.addVertex 0).addEdge 0 2 (some 0) none 0
  d.addEdge 2 1 none (some 0) 0

/-- A triangle becomes a hexagon through three new vertices, which form a triangle inside. -/
def triangleExpansion : Sketch := do
  let d := (((start "triangle-expansion").keepVertex 0).keepVertex 0).keepVertex 0
  let d ← d.cutEdge 0 1 0
  let d ← d.cutEdge 1 2 0
  let d ← d.cutEdge 2 0 0
  let d := ((d.addVertex 0).addVertex 0).addVertex 0
  let d ← d.addEdge 3 4 none none 0
  let d ← d.addEdge 4 5 none none 0
  let d ← d.addEdge 5 3 none none 0
  let d ← d.addEdge 0 3 (some 0) none 0
  let d ← d.addEdge 3 1 none (some 0) 0
  let d ← d.addEdge 1 4 (some 1) none 0
  let d ← d.addEdge 4 2 none (some 1) 0
  let d ← d.addEdge 2 5 (some 2) none 0
  d.addEdge 5 0 none (some 2) 0

/-- A vertex of degree one is cut together with its edge. -/
def leafPruning : Sketch := do
  let d ← (((start "leaf-pruning").keepVertex 0).cutVertex 0).cutEdge 0 1 0
  d.checkVertex 1 fun context v s => (context.host.degree v == 1, s)

/-- Any vertex is cut; its edges go with it. -/
def vertexDeletion : Sketch := .ok ((start "vertex-deletion").cutVertex 0)

/-- A new leaf at every vertex. -/
def attachLeaf : Sketch :=
  (((start "attach-leaf").keepVertex 0).addVertex 0).addEdge 0 1 none none 0

/-- A new vertex next to both ends of every edge. -/
def edgeTriangle : Sketch := do
  let d ← (((start "edge-triangle").keepVertex 0).keepVertex 0).keepEdge 0 1 0
  let d ← (d.addVertex 0).addEdge 0 2 none none 0
  d.addEdge 1 2 none none 0

/-- Two spokes of a hub are cut and their rims joined through the sockets that both leave there.
At all pairs of leaves of a star with three leaves at once, the splices close an odd cycle. -/
def leafBridge : Sketch := do
  let d := (((start "leaf-bridge").keepVertex 0).keepVertex 0).keepVertex 0
  let d ← d.cutEdge 0 1 0
  let d ← d.cutEdge 0 2 0
  d.addEdge 1 2 (some 0) (some 1) 0

/-- The drafts by name. -/
def byName : List (String × Sketch) :=
  [("edge_subdivision", edgeSubdivision), ("triangle_expansion", triangleExpansion),
    ("leaf_pruning", leafPruning), ("vertex_deletion", vertexDeletion),
    ("attach_leaf", attachLeaf), ("edge_triangle", edgeTriangle), ("leaf_bridge", leafBridge)]

end GraphSplice.Samples
