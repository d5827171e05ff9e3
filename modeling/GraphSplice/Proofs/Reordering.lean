import GraphSplice.Proofs.Blueprint.Isomorphism
import GraphSplice.Proofs.Blueprint.Reordering
import GraphSplice.Proofs.Derivation

/-!
The order of a batch does not matter: a reordered batch derives an isomorphic graph or is refused
for the same cause.
-/

namespace GraphSplice

variable {D : Domain} {host : Host D} {batch batch' : List (Resolved D)}

/-- Both derivations succeed alike or fail alike; which stale application is named may differ. -/
inductive Resembles : Except ApplyError (Derivation D) → Except ApplyError (Derivation D) → Prop
  | derived (d d' : Derivation D) (f : VertexId → VertexId) (g : EdgeId → EdgeId) :
    d.Isomorphism d' f g → Resembles (.ok d) (.ok d')
  | stale (rule rule' : RuleId) (application application' : Nat) :
    Resembles (.error (.stale rule application)) (.error (.stale rule' application'))
  | refused (e : ApplyError) : Resembles (.error e) (.error e)

namespace Outcome

variable {σ : Equiv.Perm Nat} {x y : Except ApplyError (Derivation D)}

theorem resembles_of_fresh (h : Outcome host batch x) (h' : Outcome host batch' y)
    (numbers : Numbers σ batch batch') (valid : ∀ r ∈ batch, r.Valid host)
    (fresh : ∀ r ∈ batch, ¬ r.Stale batch)
    (grounded : (Blueprint.of host batch).Grounded host)
    (grounded' : (Blueprint.of host batch').Grounded host) : Resembles x y := by
  have renamed := Blueprint.renamed_of numbers grounded grounded'
  have fresh' : ∀ r ∈ batch', ¬ r.Stale batch' := by
    intro r hr stale
    rw [← Resolved.Stale.congr_mem numbers.mem_iff] at stale
    exact fresh r ((numbers.mem_iff r).mpr hr) stale
  rcases h.fresh_cases fresh with ⟨n, first, rfl⟩ | ⟨n, balanced, first, rfl⟩ |
      ⟨d, balanced, roomy, yields, rfl⟩
  · have odd' := renamed.odd first.odd
    rcases h'.fresh_cases fresh' with ⟨n', first', rfl⟩ | ⟨n', balanced', -⟩ | ⟨d', balanced', -⟩
    · rw [(renamed.firstOdd first).unique first']
      exact .refused _
    · exact absurd odd' balanced'
    · exact absurd odd' balanced'
  · rcases h'.fresh_cases fresh' with ⟨n', first', -⟩ | ⟨n', -, first', rfl⟩ | ⟨d', -, roomy', -⟩
    · exact absurd (renamed.odd_iff.mp first'.odd) balanced
    · rw [(renamed.firstCrowded first).unique first']
      exact .refused _
    · exact absurd (renamed.firstCrowded first) (roomy' n)
  · rcases h'.fresh_cases fresh' with ⟨n', first', -⟩ | ⟨n', -, first', -⟩ | ⟨d', -, -, yields', rfl⟩
    · exact absurd (renamed.odd_iff.mp first'.odd) balanced
    · exact absurd (renamed.symm.firstCrowded first') (roomy n')
    · obtain ⟨chosen, selects, reads⟩ := yields.exists_reads grounded
      obtain ⟨chosen', selects', reads'⟩ := yields'.exists_reads grounded'
      have valid' : ∀ r ∈ batch', r.Valid host := fun r hr =>
        valid r ((numbers.mem_iff r).mpr hr)
      have twins : Blueprint.Twins host σ (Blueprint.of host batch) (Blueprint.of host batch')
          chosen chosen' :=
        ⟨renamed, grounded, grounded', Blueprint.proper_of valid, Blueprint.proper_of valid',
          balanced, selects, selects'⟩
      obtain ⟨f, g, alike⟩ := twins.exists_isomorphism reads reads'
      exact .derived d d' f g alike

/-- What becomes of a batch and of a reordered batch. -/
theorem resembles (h : Outcome host batch x) (h' : Outcome host batch' y)
    (numbers : Numbers σ batch batch') (consistent : host.Consistent)
    (valid : ∀ r ∈ batch, r.Valid host) (state : D.BuildState) : Resembles x y := by
  by_cases stale : ∃ r ∈ batch, r.Stale batch
  · obtain ⟨r, hr, bad⟩ := stale
    obtain ⟨rule, application, rfl⟩ := h.stale_of hr bad
    rw [Resolved.Stale.congr_mem numbers.mem_iff] at bad
    obtain ⟨rule', application', rfl⟩ := h'.stale_of ((numbers.mem_iff r).mp hr) bad
    exact .stale rule rule' application application'
  · have fresh : ∀ r ∈ batch, ¬ r.Stale batch := fun r hr bad => stale ⟨r, hr, bad⟩
    have fresh' : ∀ r ∈ batch', ¬ r.Stale batch' := by
      intro r hr bad
      rw [← Resolved.Stale.congr_mem numbers.mem_iff] at bad
      exact fresh r ((numbers.mem_iff r).mpr hr) bad
    apply h.resembles_of_fresh h' numbers valid fresh
    · exact Derivation.grounded_of consistent valid state fresh
    · apply Derivation.grounded_of consistent _ state fresh'
      exact fun r hr => valid r ((numbers.mem_iff r).mpr hr)

end Outcome

namespace Grammar

theorem resolveAll_of_perm {g : Grammar D} {applications applications' : List Application}
    (perm : applications.Perm applications') (h : g.resolveAll host applications = .ok batch) :
    ∃ batch', g.resolveAll host applications' = .ok batch' ∧ batch.Perm batch' := by
  obtain ⟨batch', related, reordered⟩ := List.perm_comp_forall₂ perm.symm (forall₂_of_mapM h)
  exact ⟨batch', mapM_of_forall₂ related, reordered.symm⟩

/-- A batch in another order derives an isomorphic graph, or fails for the same cause. -/
theorem derive_of_perm {g : Grammar D} (grown : g.Grown) (built : host.Built)
    {applications applications' : List Application} (perm : applications.Perm applications')
    (silent : g.SilentOn applications) (valid : (g.resolveAll host applications).isOk = true)
    (state state' : D.BuildState) :
    Resembles (g.derive host applications state).result
      (g.derive host applications' state').result := by
  obtain ⟨batch, resolved⟩ := exists_of_isOk valid
  obtain ⟨batch', resolved', reordered⟩ := resolveAll_of_perm perm resolved
  obtain ⟨σ, numbers⟩ := exists_numbers reordered
  have silent' : g.SilentOn applications' := fun app happ =>
    silent app (perm.mem_iff.mpr happ)
  have outcome := outcome grown built.consistent resolved silent state
  have outcome' := Grammar.outcome grown built.consistent resolved' silent' state'
  apply outcome.resembles outcome' numbers built.consistent _ state
  exact fun r hr => (valid_of_resolveAll grown.sound resolved r hr).1

open Samples in
/-- The two edges of a path are split in either order. -/
theorem derive_of_perm_path : Resembles
    ((single splitEdge).derive (shaped 3 [(0, 1), (1, 2)])
      [applyAt [0, 1] [0], applyAt [1, 2] [1]] ()).result
    ((single splitEdge).derive (shaped 3 [(0, 1), (1, 2)])
      [applyAt [1, 2] [1], applyAt [0, 1] [0]] ()).result :=
  derive_of_perm (grown_single _) (built_shaped _ _) (.swap _ _ _) (by decide +kernel)
    (by decide +kernel) () ()

end Grammar

end GraphSplice
