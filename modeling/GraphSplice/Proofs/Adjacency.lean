import GraphSplice.Proofs.Graph.Adjacency
import GraphSplice.Proofs.History

/-!
Adjacency in the graphs that a caller can get. Whatever elements were added, in whatever order, with
attempts that failed in between, and whatever was derived, what the graph lists of its edges agrees
with its edge table.
-/

namespace GraphSplice

variable {D : Domain} {host g : Host D} {batch : List (Resolved D)}

/-- The creation callbacks of a rule change graphs by the operations on graphs alone, so that a
built graph stays a built one. -/
structure Rule.BuildsOnly (r : Rule D) : Prop where
  vertices : ∀ x ∈ r.addedVertices, ∀ run, x.creation = some run →
    ∀ context v (out : Host D × D.BuildState), context.host.Built → out.1.Built →
      (run context v out).1.Built
  edges : ∀ x ∈ r.addedEdges, ∀ run, x.creation = some run →
    ∀ context e (out : Host D × D.BuildState), context.host.Built → out.1.Built →
      (run context e out).1.Built

theorem Rule.BuildsOnly.creates {r : Rule D} (builds : r.BuildsOnly) (built : host.Built) :
    r.Creates host fun g g' => g.Built → g'.Built where
  vertices x hx run declared context v out same :=
    builds.vertices x hx run declared context v out (same ▸ built)
  edges x hx run declared context e out same :=
    builds.edges x hx run declared context e out (same ▸ built)

theorem Rule.IsSilent.buildsOnly {r : Rule D} (silent : r.IsSilent) : r.BuildsOnly where
  vertices x hx run declared := by
    rw [silent.1 x hx] at declared
    cases declared
  edges x hx run declared := by
    rw [silent.2 x hx] at declared
    cases declared

theorem Rule.rule_of_resolve {rule : Rule D} {o : Occurrence} {r : Resolved D}
    (h : rule.resolve host o = .ok r) : r.rule = rule := by
  unfold resolve at h
  split at h
  · cases h
  · split at h
    · cases h
    · obtain ⟨edges, -, h⟩ := bind_ok h
      cases h
      rfl

/-- Resolved applications are of rules of the grammar. -/
theorem Grammar.mem_rules_of_resolveAll {g : Grammar D} {applications : List Application}
    (h : g.resolveAll host applications = .ok batch) : ∀ r ∈ batch, r.rule ∈ g.rules.toList := by
  intro r hr
  obtain ⟨i, there⟩ := List.getElem?_of_mem hr
  obtain ⟨app, -, resolves⟩ := (forall₂_getElem? (forall₂_of_mapM h) i).2 r there
  cases found : g.rule? app.rule with
  | none =>
    rw [resolve_of_missing app found] at resolves
    cases resolves
  | some rule =>
    rw [resolve_eq app found] at resolves
    rw [Rule.rule_of_resolve resolves]
    exact Array.mem_toList_iff.mpr (Array.mem_of_getElem? found)

/-- A graph that is derived from a built one is built. -/
theorem Derivation.built_of_derive (built : host.Built) (builds : ∀ r ∈ batch, r.rule.BuildsOnly)
    {state : D.BuildState} {options : Options} {d : Derivation D}
    (h : (derive host batch state options).result = .ok d) : d.graph.Built := by
  obtain ⟨w, a, after, assembled, made⟩ := exists_assembled_of_derive h
  have relates := Creation.run_relates (R := fun g g' : Host D => g.Built → g'.Built)
    (fun _ => id) (fun _ _ _ first second => second ∘ first)
    (fun r hr => (builds r hr).creates built) a after
  exact made ▸ relates (Wiring.built_assemble built assembled)

namespace Move

/-- The creation callbacks of the rules use the operations on graphs alone. -/
def BuildsOnly : Move D → Prop
  | .derive g _ _ => ∀ rule ∈ g.rules.toList, rule.BuildsOnly
  | _ => True

theorem built_result (built : host.Built) {m : Move D} (builds : m.BuildsOnly) :
    (m.result host).Built := by
  have added {x : Except GraphError (Host D)} (ok : ∀ next, x = .ok next → next.Built) :
      (x.toOption.getD host).Built := by
    cases x with
    | error e => exact built
    | ok next => exact ok next rfl
  cases m with
  | addVertex payload => exact built.addVertexAt _ payload
  | addVertexAt index payload => exact built.addVertexAt index payload
  | addEdge a b payload => exact added fun next made => built.addEdgeAt made
  | addEdgeAt a b index payload => exact added fun next made => built.addEdgeAt made
  | derive g applications state =>
    cases derived : (g.derive host applications state).result with
    | error e =>
      have failed : (Move.derive g applications state).result host = host := by
        rw [result, next?, derived]
        rfl
      rw [failed]
      exact built
    | ok d =>
      obtain ⟨batch, resolved, derived'⟩ := Grammar.derive_ok derived
      have made : (Move.derive g applications state).result host = d.graph :=
        Derives.result (m := .derive g applications state) derived
      rw [made]
      exact Derivation.built_of_derive built
        (fun r hr => builds r.rule (Grammar.mem_rules_of_resolveAll resolved r hr)) derived'

end Move

/-- The graphs that moves lead to from the empty graph; a move that fails leaves its graph. -/
inductive Obtained : Host D → Prop
  | empty : Obtained .empty
  | move {g : Host D} (m : Move D) : Obtained g → m.BuildsOnly → Obtained (m.result g)

namespace Obtained

theorem built (obtained : Obtained g) : g.Built := by
  induction obtained with
  | empty => exact .empty
  | move m _ builds ih => exact m.built_result ih builds

/-- In a graph that moves lead to, the edges at a vertex are listed once each and ascending, and so
are those between two vertices, whichever comes first; a neighbour comes as often as there are edges
to it, and the degrees add up to twice the number of edges. -/
theorem adjacency (obtained : Obtained g) :
    (∀ v, (g.incident v).Pairwise (· < ·) ∧
      ∀ e, e ∈ g.incident v ↔ ∃ record, g.edge? e = some record ∧ record.ends.Touches v) ∧
    (∀ a b, g.edgesBetween a b = g.edgesBetween b a ∧ (g.edgesBetween a b).Pairwise (· < ·) ∧
      ∀ e, e ∈ g.edgesBetween a b ↔ ∃ record, g.edge? e = some record ∧ record.ends.Joins a b) ∧
    (∀ v u, (g.neighbors v).count u =
      g.edgeIds.countP fun e => (g.edge? e).any fun record => record.ends.Joins v u) ∧
    (g.vertexIds.map g.degree).sum = 2 * g.size := by
  have consistent := obtained.built.consistent
  refine ⟨fun v => ⟨?_, fun e => ?_⟩, fun a b => ⟨?_, ?_, fun e => ?_⟩, fun v u => ?_, ?_⟩
  · exact Graph.incident_ascending consistent v
  · exact Graph.mem_incident_iff consistent
  · exact Graph.edgesBetween_comm consistent a b
  · exact Graph.edgesBetween_ascending consistent a b
  · exact Graph.mem_edgesBetween_iff consistent
  · exact Graph.count_neighbors consistent v u
  · exact Graph.sum_degree consistent

open Samples in
/-- A loop, two parallel edges, an edge to nowhere, and then one of the parallel edges is split. -/
theorem adjacency_split :
    let g : Host .plain := (Move.addEdge ⟨0⟩ ⟨7⟩ ()).result ((Move.addEdgeAt ⟨1⟩ ⟨0⟩ 3 ()).result
      ((Move.addEdge ⟨0⟩ ⟨1⟩ ()).result ((Move.addEdge ⟨0⟩ ⟨0⟩ ()).result
        ((Move.addVertexAt 5 ()).result ((Move.addVertex ()).result .empty)))))
    let split := (Move.derive (single splitEdge) [applyAt [0, 1] [1]] ()).result g
    (g.neighbors ⟨0⟩).count ⟨1⟩ = 2 ∧ (split.neighbors ⟨0⟩).count ⟨1⟩ = 1 ∧
      (split.vertexIds.map split.degree).sum = 8 := by
  intro g split
  have obtained : Obtained g :=
    .move _ (.move _ (.move _ (.move _ (.move _ (.move _ .empty trivial) trivial) trivial) trivial)
      trivial) trivial
  have silent : ∀ rule ∈ (single splitEdge).rules.toList, rule.IsSilent := by decide +kernel
  have obtained' : Obtained split := .move _ obtained fun rule hr => (silent rule hr).buildsOnly
  obtain ⟨-, -, neighbors, -⟩ := obtained.adjacency
  obtain ⟨-, -, neighbors', degrees⟩ := obtained'.adjacency
  have size : split.size = 4 := by decide +kernel
  refine ⟨?_, ?_, ?_⟩
  · rw [neighbors]
    decide +kernel
  · rw [neighbors']
    decide +kernel
  · rw [degrees, size]

end Obtained

end GraphSplice
