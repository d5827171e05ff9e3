import GraphSplice.Pattern

/-!
The backtracking search for embeddings of a pattern into a target. Vertices are placed in a fixed
order, most connected first; candidates come from the neighbourhood of a vertex that is already
placed; every partial placement is induced. Which pairs may be matched, and what is done with a
complete embedding, is up to a guide, which threads a state of its own through all its answers.
-/

namespace GraphSplice

universe u v

/-- Whether a search goes on after an embedding was visited. -/
inductive Flow where
  | more
  | done
  deriving DecidableEq, Repr

/-- Visits the items in order until one answers `done`. -/
def visitUntil {α : Type u} {σ : Type v} (visit : α → σ → Flow × σ) : List α → σ → Flow × σ
  | [], s => (.more, s)
  | x :: xs, s =>
    match visit x s with
    | (.done, s') => (.done, s')
    | (.more, s') => visitUntil visit xs s'

/-- Asks the items in order until one answers `true`. -/
def anyInTurn {α : Type u} {σ : Type v} (ask : α → σ → Bool × σ) : List α → σ → Bool × σ
  | [], s => (false, s)
  | x :: xs, s =>
    match ask x s with
    | (true, s') => (true, s')
    | (false, s') => anyInTurn ask xs s'

/-- An assignment under way: which of the targets are taken, by position, and what was chosen so
far, in the order of the edges. -/
structure Allotment (count : Nat) where
  taken : Vector Bool count
  chosen : List Nat
  deriving DecidableEq, Repr

namespace Allotment

variable {count : Nat}

def empty (count : Nat) : Allotment count := ⟨Vector.replicate count false, []⟩

def choose (a : Allotment count) (i : Fin count) (target : Nat) : Allotment count :=
  ⟨a.taken.set i true i.isLt, a.chosen ++ [target]⟩

/-- Gives up the choice made last, which was the target at position `i`. -/
def giveUp (a : Allotment count) (i : Fin count) : Allotment count :=
  ⟨a.taken.set i false i.isLt, a.chosen.dropLast⟩

end Allotment

/-- Assigns the pattern edges, in order, to target edges that the test accepts, none of them twice.
For each edge the targets are tried in order; a choice that cannot be completed is given up. -/
def allot {σ : Type u} (accepts : Nat → Nat → σ → Bool × σ) (targets : List Nat) :
    List Nat → Allotment targets.length × σ → Bool × Allotment targets.length × σ
  | [], state => (true, state)
  | edge :: rest, state =>
    anyInTurn (fun i (a, s) =>
      if a.taken.get i then (false, a, s)
      else
        match accepts edge (targets.get i) s with
        | (false, s) => (false, a, s)
        | (true, s) =>
          match allot accepts targets rest (a.choose i (targets.get i), s) with
          | (true, a, s) => (true, a, s)
          | (false, a, s) => (false, a.giveUp i, s)) (List.finRange targets.length) state

/-- Where the vertices and edges of a pattern are sent, by position. -/
structure Embedding where
  vertices : List Nat
  edges : List Nat
  deriving DecidableEq, Repr

structure Guide (σ : Type u) where
  vertex : Nat → Nat → σ → Bool × σ
  edge : Nat → Nat → σ → Bool × σ
  visit : Embedding → σ → Flow × σ

namespace Search

/-- The vertex to place and, if there is one, the earliest placed vertex joined to it. -/
structure Visit where
  vertex : Nat
  anchor : Option Nat
  deriving DecidableEq, Repr

/-- The number of edges from `v` into the placed vertices. -/
def links (p : Pattern) (placed : List Visit) (v : Nat) : Nat :=
  (placed.flatMap fun x => p.edgesBetween x.vertex v).length

/-- `v` goes before `best`: it has more links into the placed part or, with as many, a greater
degree. -/
def Before (p : Pattern) (placed : List Visit) (v best : Nat) : Prop :=
  links p placed best < links p placed v ∨
    (links p placed best = links p placed v ∧ p.degree best < p.degree v)

instance (p : Pattern) (placed : List Visit) (v best : Nat) : Decidable (Before p placed v best) :=
  inferInstanceAs (Decidable (_ ∨ _))

/-- The next vertex to place; of equally good ones the lowest. -/
def nextVertex? (p : Pattern) (placed : List Visit) : Option Nat :=
  ((List.range p.order).filter fun v => v ∉ placed.map (·.vertex)).foldl
    (fun best v =>
      match best with
      | none => some v
      | some b => if Before p placed v b then some v else some b) none

def anchor? (p : Pattern) (placed : List Visit) (v : Nat) : Option Nat :=
  (placed.map (·.vertex)).find? fun u => !(p.edgesBetween u v).isEmpty

def visitOrder (p : Pattern) : List Visit :=
  (List.range p.order).foldl (fun placed _ =>
    match nextVertex? p placed with
    | none => placed
    | some v => placed ++ [⟨v, anchor? p placed v⟩]) []

/-- A table from positions of the pattern to positions of the target, ascending in the former. -/
abbrev Table := List (Nat × Nat)

def Table.insert (key value : Nat) : Table → Table
  | [] => [(key, value)]
  | (k, v) :: rest =>
    if key < k then (key, value) :: (k, v) :: rest else (k, v) :: insert key value rest

def Table.values (t : Table) : List Nat := t.map (·.2)

/-- A part of the pattern that has been placed. -/
structure Placement where
  vertices : Table
  edges : Table
  deriving DecidableEq, Repr

namespace Placement

def empty : Placement := ⟨[], []⟩

def image? (m : Placement) (v : Nat) : Option Nat := m.vertices.lookup v

def uses (m : Placement) (t : Nat) : Bool := m.vertices.values.contains t

def place (m : Placement) (v t : Nat) (edges : Table) : Placement :=
  ⟨m.vertices.insert v t, edges.foldl (fun acc e => acc.insert e.1 e.2) m.edges⟩

def toEmbedding (m : Placement) : Embedding := ⟨m.vertices.values, m.edges.values⟩

end Placement

variable {σ : Type u}

/-- The edges between `v` and a placed vertex beside those between their images. -/
structure Bundle where
  pattern : List Nat
  target : List Nat
  deriving DecidableEq, Repr

/-- Enough target edges for the pattern edges, and none where the pattern has none. -/
def Bundle.Fits (b : Bundle) : Prop :=
  b.pattern.length ≤ b.target.length ∧ (b.pattern = [] → b.target = [])

instance (b : Bundle) : Decidable b.Fits := inferInstanceAs (Decidable (_ ∧ (_ → _)))

/-- The bundles from `v`, placed on `t`, to the placed vertices. -/
def bundles (p : Pattern) (target : Target) (m : Placement) (v t : Nat) : List Bundle :=
  m.vertices.map fun q => ⟨p.edgesBetween v q.1, target.edgesBetween t q.2⟩

/-- The target edges that the pattern edges of the bundle are assigned to. -/
def Bundle.assign (accepts : Nat → Nat → σ → Bool × σ) (b : Bundle) (s : σ) :
    Option (List Nat) × σ :=
  match allot accepts b.target b.pattern (.empty b.target.length, s) with
  | (true, a, s) => (some a.chosen, s)
  | (false, _, s) => (none, s)

/-- Assigns the edges of one bundle after the other. -/
def assignBundles (accepts : Nat → Nat → σ → Bool × σ) : List Bundle → σ → Option Table × σ
  | [], s => (some [], s)
  | b :: rest, s =>
    match b.assign accepts s with
    | (none, s) => (none, s)
    | (some chosen, s) =>
      match assignBundles accepts rest s with
      | (none, s) => (none, s)
      | (some more, s) => (some (b.pattern.zip chosen ++ more), s)

/-- Tries to place `v` on `t`. The structure is compared before the guide is asked about the
vertex, and the vertex before the edges. -/
def fit (guide : Guide σ) (p : Pattern) (target : Target) (m : Placement) (v t : Nat) (s : σ) :
    Option Table × σ :=
  let around := bundles p target m v t
  if ∃ b ∈ around, ¬ b.Fits then (none, s)
  else
    match guide.vertex v t s with
    | (false, s) => (none, s)
    | (true, s) => assignBundles guide.edge around s

def candidates (target : Target) (m : Placement) (x : Visit) : List Nat :=
  match x.anchor.bind m.image? with
  | some seed => target.distinctNeighbors seed
  | none => List.range target.order

/-- `t` is still free and has at least as many neighbours as `v`. -/
def Open (p : Pattern) (target : Target) (m : Placement) (v t : Nat) : Prop :=
  m.uses t = false ∧ (p.distinctNeighbors v).length ≤ (target.distinctNeighbors t).length

instance (p : Pattern) (target : Target) (m : Placement) (v t : Nat) :
    Decidable (Open p target m v t) := inferInstanceAs (Decidable (_ ∧ _))

/-- Extends the placement by the visits in order, in every way, and shows the guide each complete
embedding. -/
def extend (guide : Guide σ) (p : Pattern) (target : Target) :
    List Visit → Placement → σ → Flow × σ
  | [], m, s => guide.visit m.toEmbedding s
  | x :: rest, m, s =>
    visitUntil (fun t s =>
      if Open p target m x.vertex t then
        match fit guide p target m x.vertex t s with
        | (none, s) => (.more, s)
        | (some edges, s) => extend guide p target rest (m.place x.vertex t edges) s
      else (.more, s)) (candidates target m x) s

def run (guide : Guide σ) (p : Pattern) (target : Target) (s : σ) : Flow × σ :=
  extend guide p target (visitOrder p) .empty s

end Search

end GraphSplice
