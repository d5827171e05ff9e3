import GraphSplice.Proofs.Derivation

/-!
When a batch is refused for a malformed socket. After reconciliation every linked socket hangs off
one node, and it has several links only where nothing was merged on either side of its component:
parallel links between two vacated sockets of the host then stay as they are.
-/

namespace GraphSplice

variable {D : Domain} {host : Host D} {batch : List (Resolved D)}

namespace Verdict

variable {x : Except ApplyError (Derivation D)}

theorem malformed_iff (h : Verdict host batch x) {attachments links : Nat} :
    x = .error (.malformedSocket attachments links) ↔ attachments = 1 ∧
      (∀ r ∈ batch, ¬ r.Stale batch) ∧ ¬ (Blueprint.of host batch).Odd ∧
      (Blueprint.of host batch).FirstCrowded links := by
  constructor
  · rintro rfl
    cases h with
    | stale _ stale =>
      obtain ⟨-, rule, application, same⟩ := stale.exists_stale
      cases same
    | crowded _ fresh balanced first => exact ⟨rfl, fresh, balanced, first⟩
  · rintro ⟨rfl, fresh, balanced, first⟩
    cases h with
    | stale e stale =>
      obtain ⟨⟨r, hr, bad⟩, -⟩ := stale.exists_stale
      exact absurd bad (fresh r hr)
    | odd n _ odd => exact absurd odd.odd balanced
    | crowded n _ _ first' => rw [first.unique first']
    | derived a state _ _ roomy => exact absurd first (roomy links)

end Verdict

namespace Grammar

/-- A batch is refused for a malformed socket exactly where its applications are valid and none of
them stale, no component is odd, and the foremost sockets on the two sides of some component have
several links between them. The socket that is reported has one attachment and those links. -/
theorem derive_malformed_iff {g : Grammar D} (grown : g.Grown) (built : host.Built)
    (applications : List Application) (state : D.BuildState) (attachments links : Nat) :
    (g.derive host applications state).result = .error (.malformedSocket attachments links) ↔
      attachments = 1 ∧ ∃ batch, g.resolveAll host applications = .ok batch ∧
        (∀ r ∈ batch, ¬ r.Stale batch) ∧ ¬ (Blueprint.of host batch).Odd ∧
        (Blueprint.of host batch).FirstCrowded links := by
  cases resolved : g.resolveAll host applications with
  | error e =>
    have invalid := isInvalid_of_resolveAll resolved
    have answer : (g.derive host applications state).result = .error e := by
      unfold derive
      rw [resolved]
      rfl
    rw [answer]
    constructor
    · intro same
      cases same
      cases invalid
    · rintro ⟨-, batch, same, -⟩
      cases same
  | ok batch =>
    rw [(verdict grown built.consistent resolved state).malformed_iff]
    constructor
    · rintro ⟨one, crowded⟩
      exact ⟨one, batch, rfl, crowded⟩
    · rintro ⟨one, _, same, crowded⟩
      cases same
      exact ⟨one, crowded⟩

open Samples in
/-- Where a bridge is laid twice, no socket is folded away and two sockets are crowded. -/
theorem derive_malformed_iff_bridge :
    ∃ batch, (single bridgeSpokes).resolveAll (shaped 4 [(0, 1), (0, 2), (0, 3)])
      [applyAt [0, 1, 2] [0, 1], applyAt [0, 1, 2] [0, 1]] = .ok batch ∧
      (∀ r ∈ batch, ¬ r.Stale batch) ∧
      ¬ (Blueprint.of (shaped 4 [(0, 1), (0, 2), (0, 3)]) batch).Odd ∧
      (Blueprint.of (shaped 4 [(0, 1), (0, 2), (0, 3)]) batch).FirstCrowded 2 :=
  ((derive_malformed_iff (grown_single bridgeSpokes) (built_shaped 4 [(0, 1), (0, 2), (0, 3)])
    [applyAt [0, 1, 2] [0, 1], applyAt [0, 1, 2] [0, 1]] () 1 2).mp
    (eq_error_of_check (by decide +kernel))).2

open Samples in
/-- One bridge laid twice is refused, although both of its links join the same two sockets. -/
theorem malformed_of_repeated_bridge :
    ((single bridgeSpokes).derive (shaped 4 [(0, 1), (0, 2), (0, 3)])
      [applyAt [0, 1, 2] [0, 1], applyAt [0, 1, 2] [0, 1]] ()).result =
    .error (.malformedSocket 1 2) :=
  eq_error_of_check (by decide +kernel)

end Grammar

end GraphSplice
