import GraphSplice.Graph.Shapes
import GraphSplice.Proofs.Graph.Consistency
import GraphSplice.Proofs.Rule.Compilation

/-!
The graphs of common shape are built from the empty one, and a rule that splits edges on a small
one of them.
-/

namespace GraphSplice

namespace Graph

universe u v
variable {N : Type u} {E : Type v}

theorem built_ofEdges {vertex : N} {edge : E} {n : Nat} {edges : List (Nat × Nat)}
    {g : Graph N E} (h : ofEdges vertex edge n edges = .ok g) : g.Built := by
  have bare : ∀ (xs : List Nat) (g : Graph N E), g.Built →
      (xs.foldl (fun g _ => g.addVertex vertex) g).Built := by
    intro xs
    induction xs with
    | nil => exact fun g built => built
    | cons x xs ih => exact fun g built => ih _ (built.addVertexAt _ _)
  have joined : ∀ (xs : List (Nat × Nat)) (start : Graph N E), start.Built →
      xs.foldlM (fun g x => g.addEdge (place n x.1) (place n x.2) edge) start = .ok g → g.Built := by
    intro xs
    induction xs with
    | nil =>
      intro start built h
      cases h
      exact built
    | cons x xs ih =>
      intro start built h
      rw [List.foldlM_cons] at h
      obtain ⟨next, added, h⟩ := bind_ok h
      exact ih next (built.addEdgeAt added) h
  exact joined edges _ (bare _ _ .empty) h

end Graph

namespace Samples

/-- A graph of common shape, or the empty one where the shape is refused. -/
def shaped (n : Nat) (edges : List (Nat × Nat)) : Host .plain :=
  match Graph.ofEdges () () n edges with
  | .ok g => g
  | .error _ => .empty

theorem built_shaped (n : Nat) (edges : List (Nat × Nat)) : (shaped n edges).Built := by
  unfold shaped
  split
  · next found => exact Graph.built_ofEdges found
  · exact .empty

/-- The grammar of one rule. -/
def single (declarations : List (Declaration .plain)) : Grammar .plain :=
  ((Grammar.empty .default).add (Draft.empty.declareAll declarations) none).grammar

theorem grown_single (declarations : List (Declaration .plain)) : (single declarations).Grown :=
  .add declarations none (.empty _)

/-- The grammar of two rules. -/
def pair (first second : List (Declaration .plain)) : Grammar .plain :=
  ((single first).add (Draft.empty.declareAll second) none).grammar

theorem grown_pair (first second : List (Declaration .plain)) : (pair first second).Grown :=
  .add second none (grown_single first)

/-- An edge becomes a path of two. -/
def splitEdge : List (Declaration .plain) :=
  [.keepVertex 0, .keepVertex 0, .cutEdge 0 1 0, .addVertex 0, .addEdge 0 2 (some 0) none 0,
    .addEdge 2 1 none (some 0) 0]

/-- Two spokes of a hub are cut and their far ends joined through the sockets left there. -/
def bridgeSpokes : List (Declaration .plain) :=
  [.keepVertex 0, .keepVertex 0, .keepVertex 0, .cutEdge 0 1 0, .cutEdge 0 2 0,
    .addEdge 1 2 (some 0) (some 1) 0]

/-- Two parallel edges are cut, and each half is joined to the far half of the other edge. -/
def crossEdges : List (Declaration .plain) :=
  [.keepVertex 0, .keepVertex 0, .cutEdge 0 1 0, .cutEdge 0 1 0,
    .addEdge 0 1 (some 0) (some 1) 0, .addEdge 0 1 (some 1) (some 0) 0]

/-- Two parallel edges are cut, and the near half of one is joined to the far half of the other. -/
def crossOnce : List (Declaration .plain) :=
  [.keepVertex 0, .keepVertex 0, .cutEdge 0 1 0, .cutEdge 0 1 0, .addEdge 0 1 (some 0) (some 1) 0]

/-- A new leaf at a vertex. -/
def growLeaf : List (Declaration .plain) :=
  [.keepVertex 0, .addVertex 1, .addEdge 0 1 none none 0]

/-- A leaf is cut and another one grown in its place. -/
def renewLeaf : List (Declaration .plain) :=
  [.keepVertex 0, .cutVertex 1, .cutEdge 0 1 0, .addVertex 1, .addEdge 0 2 none none 0]

/-- Two spokes of a hub are kept. -/
def keepSpokes : List (Declaration .plain) :=
  [.keepVertex 0, .keepVertex 0, .keepVertex 0, .keepEdge 0 1 0, .keepEdge 0 2 0]

/-- An edge is kept. -/
def keepEdge : List (Declaration .plain) := [.keepVertex 0, .keepVertex 0, .keepEdge 0 1 0]

/-- The second edge of a graph is kept. -/
def keepSecond : List (Declaration .plain) :=
  [.keepVertex 0, .keepVertex 0, .keepEdge 0 1 0, .checkEdge 0 fun _ e s => (e = ⟨1⟩, s)]

/-- Of two parallel edges the second one is cut. -/
def thinDouble : List (Declaration .plain) :=
  [.keepVertex 0, .keepVertex 0, .keepEdge 0 1 0, .cutEdge 0 1 0]

/-- The rule of the grammar at an occurrence. -/
def applyAt (vertices edges : List Nat) : Application :=
  ⟨⟨0⟩, ⟨vertices.map Handle.mk, edges.map Handle.mk⟩⟩

end Samples

end GraphSplice
