import GraphSplice.Pattern

/-!
Symmetries of rules. A permutation of the matched vertices is a symmetry when it keeps roles and
tags, carries the matched edges onto themselves, and is completed by a permutation of the added
vertices that carries the added edges, with the sockets they are spliced into, onto themselves.
Two embeddings that differ by a symmetry describe one occurrence. Rules are small, so the group
is found by trying all permutations that stay consistent.
-/

namespace GraphSplice

/-- An end of an added edge: a matched vertex, or one added by the same application. -/
inductive Endpoint where
  | matched (i : Nat)
  | created (k : Nat)
  deriving DecidableEq, Repr

namespace Symmetry

structure VertexSketch where
  role : Role
  tag : Tag
  deriving DecidableEq, Repr

structure EdgeSketch where
  role : Role
  tag : Tag
  ends : Ends Nat
  deriving DecidableEq, Repr

structure AddedSketch where
  tag : Tag
  ends : Ends Endpoint
  sockets : Ends (Option Nat)
  deriving DecidableEq, Repr

/-- What of a rule matters for its symmetries. -/
structure Sketch where
  vertices : List VertexSketch
  edges : List EdgeSketch
  addedVertices : List Tag
  addedEdges : List AddedSketch
  deriving DecidableEq, Repr

/-- A permutation, or a beginning of one, as the list of its values. -/
abbrev Arrangement := List Nat

def Arrangement.apply (a : Arrangement) (i : Nat) : Nat := a.getD i i

namespace EdgeSketch

def Resembles (e f : EdgeSketch) : Prop := e.role = f.role ∧ e.tag = f.tag

instance (e f : EdgeSketch) : Decidable (e.Resembles f) := inferInstanceAs (Decidable (_ ∧ _))

/-- `f` joins the images of the ends of `e` and resembles it. -/
def MapsTo (sigma : Arrangement) (e f : EdgeSketch) : Prop :=
  f.Resembles e ∧ f.ends.Joins (sigma.apply e.ends.first) (sigma.apply e.ends.second)

instance (sigma : Arrangement) (e f : EdgeSketch) : Decidable (e.MapsTo sigma f) :=
  inferInstanceAs (Decidable (_ ∧ _))

end EdgeSketch

/-- One end of an added edge and the socket it is spliced into, as a sequence of numbers. -/
def code (x : Endpoint × Option Nat) : List Nat :=
  let socket := match x.2 with
    | none => 0
    | some edge => edge + 1
  match x.1 with
  | .matched i => [0, i, socket]
  | .created k => [1, k, socket]

/-- An added edge up to the order of its ends: the end with the lesser code comes first. -/
def AddedSketch.unordered (e : AddedSketch) : Tag × Ends (Endpoint × Option Nat) :=
  let both := e.ends.zip e.sockets
  (e.tag, if Ascending.precedes (code both.second) (code both.first) then both.swap else both)

def Endpoint.map (sigma tau : Arrangement) : Endpoint → Endpoint
  | .matched i => .matched (sigma.apply i)
  | .created k => .created (tau.apply k)

def AddedSketch.map (sigma tau rho : Arrangement) (e : AddedSketch) : AddedSketch :=
  ⟨e.tag, e.ends.map (Endpoint.map sigma tau), e.sockets.map (·.map rho.apply)⟩

namespace Sketch

/-- The roles and tags of the matched edges between two vertices. -/
def signatures (k : Sketch) (a b : Nat) : List (Role × Tag) :=
  (k.edges.filter fun e => e.ends.Joins a b).map fun e => (e.role, e.tag)

/-- The image of each matched edge under `sigma`: the first edge, not yet an image, that it maps
to. -/
def edgeImage? (k : Sketch) (sigma : Arrangement) : Option Arrangement :=
  k.edges.foldlM (fun images e =>
    (k.edges.zipIdx.find? fun f => f.2 ∉ images ∧ e.MapsTo sigma f.1).map
      fun f => images ++ [f.2]) []

/-- The added edges are carried onto themselves, as a multiset. -/
def Carries (k : Sketch) (sigma tau rho : Arrangement) : Prop :=
  ((k.addedEdges.map (·.map sigma tau rho)).map (·.unordered)).isPerm
    (k.addedEdges.map (·.unordered)) = true

instance (k : Sketch) (sigma tau rho : Arrangement) : Decidable (k.Carries sigma tau rho) :=
  inferInstanceAs (Decidable (_ = true))

end Sketch

/-- All sequences that continue `start` by `count` further positions of `0, …, n - 1`, none
twice, such that each new value is allowed after those before it; in lexicographic order. -/
def arrangements (n : Nat) (allowed : Arrangement → Nat → Bool) :
    Nat → Arrangement → List Arrangement
  | 0, start => [start]
  | count + 1, start =>
    ((List.range n).filter fun j => j ∉ start ∧ allowed start j).flatMap fun j =>
      arrangements n allowed count (start ++ [j])

/-- One of the sequences is accepted. The search ends at the first one. -/
def someArrangement (n : Nat) (allowed : Arrangement → Nat → Bool) (accepts : Arrangement → Bool) :
    Nat → Arrangement → Bool
  | 0, start => accepts start
  | count + 1, start =>
    ((List.range n).filter fun j => j ∉ start ∧ allowed start j).any fun j =>
      someArrangement n allowed accepts count (start ++ [j])

theorem someArrangement_iff {n : Nat} {allowed : Arrangement → Nat → Bool}
    {accepts : Arrangement → Bool} {count : Nat} {start : Arrangement} :
    someArrangement n allowed accepts count start = true ↔
      ∃ a ∈ arrangements n allowed count start, accepts a = true := by
  induction count generalizing start with
  | zero => simp [someArrangement, arrangements]
  | succ count ih =>
    simp only [someArrangement, arrangements, List.any_eq_true, List.mem_flatMap, ih]
    constructor
    · rintro ⟨j, hj, a, ha, hp⟩
      exact ⟨a, ⟨j, hj, ha⟩, hp⟩
    · rintro ⟨a, ⟨j, hj, ha⟩, hp⟩
      exact ⟨j, hj, a, ha, hp⟩

namespace Sketch

/-- Sending the next vertex to `j` keeps its role and tag and the edges to the vertices before
it. -/
def Consistent (k : Sketch) (start : Arrangement) (j : Nat) : Prop :=
  k.vertices[j]? = k.vertices[start.length]? ∧
    ∀ i ∈ List.range start.length,
      (k.signatures start.length i).isPerm (k.signatures j (start.apply i)) = true

instance (k : Sketch) (start : Arrangement) (j : Nat) : Decidable (k.Consistent start j) :=
  inferInstanceAs (Decidable (_ ∧ ∀ i ∈ List.range start.length, _))

def vertexArrangements (k : Sketch) : List Arrangement :=
  arrangements k.vertices.length (fun start j => k.Consistent start j) k.vertices.length []

/-- Sending the next added vertex to `j` keeps its tag. -/
def keepsTag (k : Sketch) (start : Arrangement) (j : Nat) : Bool :=
  k.addedVertices[j]? = k.addedVertices[start.length]?

def addedArrangements (k : Sketch) : List Arrangement :=
  arrangements k.addedVertices.length k.keepsTag k.addedVertices.length []

instance (k : Sketch) (sigma rho : Arrangement) :
    Decidable (∃ tau ∈ k.addedArrangements, k.Carries sigma tau rho) :=
  decidable_of_iff
    (someArrangement k.addedVertices.length k.keepsTag (fun tau => k.Carries sigma tau rho)
      k.addedVertices.length [] = true)
    (by simp [someArrangement_iff, addedArrangements])

/-- `sigma` carries the matched edges onto themselves and is completed by an arrangement of the
added vertices. -/
def Admits (k : Sketch) (sigma : Arrangement) : Prop :=
  match k.edgeImage? sigma with
  | none => False
  | some rho => ∃ tau ∈ k.addedArrangements, k.Carries sigma tau rho

instance (k : Sketch) (sigma : Arrangement) : Decidable (k.Admits sigma) := by
  unfold Admits
  split <;> infer_instance

/-- All symmetries, the identity first. -/
def symmetries (k : Sketch) : List Arrangement := k.vertexArrangements.filter fun s => k.Admits s

theorem mem_symmetries {k : Sketch} {sigma : Arrangement} :
    sigma ∈ k.symmetries ↔ sigma ∈ k.vertexArrangements ∧ k.Admits sigma := by
  simp [symmetries]

end Sketch

/-- The vertices of an embedding in another order of the pattern. -/
def permute (sigma : Arrangement) (vertices : List Nat) : List Nat :=
  sigma.filterMap fun i => vertices[i]?

def least : List Nat → List (List Nat) → List Nat
  | best, [] => best
  | best, x :: xs => least (if Ascending.precedes x best then x else best) xs

/-- The lexicographically least of the images of `vertices` under the group: one and the same
for all embeddings that differ by a symmetry. -/
def canonicalKey (group : List Arrangement) (vertices : List Nat) : List Nat :=
  match group.map (permute · vertices) with
  | [] => vertices
  | first :: rest => least first rest

end Symmetry

end GraphSplice
