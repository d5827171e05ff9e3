import GraphSplice.Proofs.Blueprint.Removal
import GraphSplice.Proofs.Derivation

/-!
A batch whose applications keep apart and cut no vertex is never refused. Its removal callbacks run
once for each cut edge, and the creation callbacks on the graph in which the cut edges are replaced.
-/

namespace GraphSplice

variable {D : Domain} {host : Host D} {batch : List (Resolved D)}

theorem Grammar.exists_replacement {g : Grammar D} (grown : g.Grown) (consistent : host.Consistent)
    {applications : List Application} (resolved : g.resolveAll host applications = .ok batch)
    (separate : Separate host batch) (steady : ∀ v, ¬ CutsVertex batch v) (state : D.BuildState) :
    ∃ a : Assembly D.Node D.Arc, (Blueprint.of host batch).Credits a ∧ a.graph.Consistent ∧
      Replaces host batch ⟨a.graph, a.createdVertices.map (·.1), a.createdEdges.map (·.1)⟩ ∧
      let out := Creation.run host batch a (batch.foldl (Cutting.tell host) state)
      (g.derive host applications state).result =
          .ok ⟨out.1, a.createdVertices.map (·.1), a.createdEdges.map (·.1)⟩ ∧
        (g.derive host applications state).state = out.2 := by
  have grounded := Derivation.grounded_of consistent separate.valid state separate.fresh
  have accounts := accounts grown consistent resolved state
  rw [separate.state_after_cuts steady consistent] at accounts
  generalize (g.derive host applications state).result = result at accounts ⊢
  generalize (g.derive host applications state).state = after at accounts ⊢
  cases accounts with
  | refused e verdict =>
    exfalso
    cases verdict with
    | stale e stale =>
      obtain ⟨⟨r, hr, bad⟩, -⟩ := stale.exists_stale
      exact separate.fresh r hr bad
    | odd n _ first => exact separate.detached.balanced first.odd
    | crowded n _ _ first => exact separate.detached.roomy grounded n first
  | built a _ _ _ yields credits whole =>
    exact ⟨a, credits, whole, separate.replaces steady consistent grounded yields, rfl, rfl⟩

end GraphSplice
