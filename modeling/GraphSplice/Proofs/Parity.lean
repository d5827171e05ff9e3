import GraphSplice.Proofs.Derivation
import GraphSplice.Proofs.Registration
import GraphSplice.Proofs.Wiring.Trails

/-!
The check for odd cycles may be left out as long as no rule has an edge spliced at both ends. The
sockets form a forest then, so there is nothing to find, and both policies give one and the same
report.
-/

namespace GraphSplice

open Wiring

variable {D : Domain} {host : Host D} {batch : List (Resolved D)}

/-! ## Forests -/

/-- Where each link has a fresh end or is that of a host edge, the sockets form a forest. -/
theorem Realizes.isForest {N E : Type} {host : Graph N E} {b : Blueprint} {L : Layout} {w : Wiring}
    (real : Realizes host b.owner b.outline L w) (proper : b.Proper)
    (loose : ∀ x ∈ b.links, (∃ e, x.origin = .host e) ∨
      ∃ side p side', x.ends.get side = .fresh p side') : w.IsForest := by
  apply isForest_of_tips
  intro e ends origin found
  obtain ⟨x, hx, rfl, rfl, rfl⟩ := (real.link_iff _ _ _).mp found
  obtain ⟨side, alone⟩ := proper.exists_tip hx (loose x hx)
  have apart := proper.ends_ne hx (loose x hx)
  have same : ∀ y ∈ b.links, ∀ k i, L.socket (y.ends.get k) = L.socket (x.ends.get i) →
      y.ends.get k = x.ends.get i := fun y hy k i equal =>
    real.distinct _ _ (real.ends y hy k) (real.ends x hx i) equal
  refine ⟨L.socket (x.ends.get side), ?_, ?_, ?_⟩
  · exact Ends.touches_iff_get.mpr ⟨side, Ends.get_map L.socket x.ends side⟩
  · intro loop
    apply apart
    apply same x hx .first .second
    rcases loop with both | both <;>
    · simp only [Ends.map, Ends.mk.injEq] at both
      exact both.1.trans both.2.symm
  · intro f ends' origin' found' touches
    obtain ⟨y, hy, rfl, rfl, rfl⟩ := (real.link_iff _ _ _).mp found'
    obtain ⟨k, at'⟩ := Ends.touches_iff_get.mp touches
    rw [Ends.get_map] at at'
    have meets := same y hy k side at'
    rw [alone y hy (Ends.touches_iff_get.mpr ⟨k, meets⟩)]

namespace Derivation

/-- Unless an added edge is spliced at both ends, the sockets form a forest after insertion. -/
theorem isForest_of_loose (consistent : host.Consistent) (valid : ∀ r ∈ batch, r.Valid host)
    (loose : ∀ r ∈ batch, r.rule.hasPotentialLoop = false) {state : D.BuildState} {w : Wiring}
    (inserted : Insertion.applyAll host batch
      (Cutting.applyAll host batch ⟨.ofGraph host, state⟩).wiring = .ok w) : w.IsForest := by
  have spec := inserted_spec consistent valid state
  rw [inserted] at spec
  obtain ⟨-, L, real⟩ := spec
  exact real.isForest (Blueprint.proper_of valid) (Blueprint.fresh_of_loose loose)

/-- Without an odd walk the check changes nothing. -/
theorem derive_of_balanced (consistent : host.Consistent) (valid : ∀ r ∈ batch, r.Valid host)
    (balanced : ¬ (Blueprint.of host batch).Odd) (state : D.BuildState) (checkParity shows : Bool) :
    derive host batch state ⟨checkParity, shows⟩ = derive host batch state ⟨true, shows⟩ := by
  have spec := inserted_spec consistent valid state
  unfold derive
  dsimp only
  cases insertion : Insertion.applyAll host batch
      (Cutting.applyAll host batch ⟨.ofGraph host, state⟩).wiring with
  | error e => rfl
  | ok w =>
    rw [insertion] at spec
    obtain ⟨-, L, real⟩ := spec
    have even : ∀ j, ¬ OnOddWalk w.LinkedTo j := by
      intro j odd
      exact balanced (real.odd_iff.mp ⟨j, odd⟩)
    have same : reconcile w checkParity = reconcile w true := by
      unfold reconcile
      rw [mergeSockets_of_balanced real.sound even]
    dsimp only
    rw [same]
    rfl

end Derivation

/-! ## Policies -/

namespace Grammar

theorem Sound.under {g : Grammar D} (sound : g.Sound) (settings : Settings) :
    (g.under settings).Sound := ⟨sound.rules, sound.armed⟩

variable {g : Grammar D}

/-- Under any policy a derivation is the one with the check. -/
theorem derive_under (sound : g.Sound) (consistent : host.Consistent) (policy : ParityPolicy)
    (limit : Option Nat) (shows : Bool) (applications : List Application) (s : D.BuildState) :
    (g.under ⟨policy, limit, shows⟩).derive host applications s =
      (g.under ⟨.always, limit, shows⟩).derive host applications s := by
  cases resolved : g.resolveAll host applications with
  | error e =>
    have left : (g.under ⟨policy, limit, shows⟩).resolveAll host applications = .error e := resolved
    have right : (g.under ⟨.always, limit, shows⟩).resolveAll host applications = .error e :=
      resolved
    unfold derive
    rw [left, right]
  | ok batch =>
    have left : (g.under ⟨policy, limit, shows⟩).resolveAll host applications = .ok batch :=
      resolved
    have right : (g.under ⟨.always, limit, shows⟩).resolveAll host applications = .ok batch :=
      resolved
    have same : Derivation.derive host batch s (g.under ⟨policy, limit, shows⟩).options =
        Derivation.derive host batch s (g.under ⟨.always, limit, shows⟩).options := by
      cases armed : g.armed with
      | true =>
        have options : (g.under ⟨policy, limit, shows⟩).options =
            (g.under ⟨.always, limit, shows⟩).options := by
          cases policy with
          | always => rfl
          | whenArmed => simp [Grammar.options, under, ParityPolicy.shouldCheck, armed]
        rw [options]
      | false =>
        exact Derivation.derive_of_balanced consistent
          (fun r hr => (valid_of_resolveAll sound resolved r hr).1)
          (not_odd_of_unarmed sound armed resolved) s _ shows
    unfold derive
    rw [left, right]
    dsimp only
    rw [same]

theorem deriveAll_under (sound : g.Sound) (consistent : host.Consistent) (policy : ParityPolicy)
    (limit : Option Nat) (shows : Bool) (m : D.MatchState) (s : D.BuildState) :
    (g.under ⟨policy, limit, shows⟩).deriveAll host m s =
      (g.under ⟨.always, limit, shows⟩).deriveAll host m s := by
  -- the policy has no part in the search
  have found : (g.under ⟨policy, limit, shows⟩).findAll host m =
      (g.under ⟨.always, limit, shows⟩).findAll host m := rfl
  have warned : (g.under ⟨policy, limit, shows⟩).warnings =
      (g.under ⟨.always, limit, shows⟩).warnings := rfl
  unfold deriveAll
  rw [found, warned]
  dsimp only
  rw [derive_under sound consistent]

/-- Without an edge spliced at both ends no cycle of sockets is reported. -/
theorem not_oddCycle_of_unarmed (sound : g.Sound) (consistent : host.Consistent)
    (unarmed : g.armed = false) (applications : List Application) (s : D.BuildState) (n : Nat) :
    (g.derive host applications s).result ≠ .error (.oddCycle n) := by
  intro refused
  cases resolved : g.resolveAll host applications with
  | error e =>
    have invalid := isInvalid_of_resolveAll resolved
    unfold derive at refused
    rw [resolved] at refused
    cases refused
    cases invalid
  | ok batch =>
    have balanced := not_odd_of_unarmed sound unarmed resolved
    rw [(answer_derive resolved _).1] at refused
    have verdict := Derivation.verdict consistent
      (fun r hr => (valid_of_resolveAll sound resolved r hr).1) s g.options (.inr balanced)
    rw [refused] at verdict
    cases verdict with
    | stale _ stale =>
      obtain ⟨-, rule, application, same⟩ := stale.exists_stale
      cases same
    | odd _ _ odd => exact balanced odd.odd

/-- Whatever was registered, checking always and checking only when armed report the same of every
batch: result, state and events. Unless some rule has an edge spliced at both ends, the sockets of
every batch form a forest and neither policy reports a cycle. -/
theorem policies_agree (registrations : List (Registration D)) (limit : Option Nat) (shows : Bool)
    (built : host.Built) :
    let always := registerAll ⟨.always, limit, shows⟩ registrations
    let whenArmed := registerAll ⟨.whenArmed, limit, shows⟩ registrations
    (∀ applications s, always.derive host applications s = whenArmed.derive host applications s) ∧
    (∀ m s, always.deriveAll host m s = whenArmed.deriveAll host m s) ∧
    ((∀ rule ∈ always.rules.toList, ∀ e ∈ rule.addedEdges, ¬ e.IsSpliced) → ∀ applications s,
      (∀ batch w, always.resolveAll host applications = .ok batch →
        Insertion.applyAll host batch
          (Cutting.applyAll host batch ⟨.ofGraph host, s⟩).wiring = .ok w → w.IsForest) ∧
      ∀ n, (always.derive host applications s).result ≠ .error (.oddCycle n) ∧
        (whenArmed.derive host applications s).result ≠ .error (.oddCycle n)) := by
  have sound : (registerAll .default registrations).Sound :=
    (grown_registerAll _ registrations).sound
  rw [registerAll_under ⟨.always, limit, shows⟩ .default registrations,
    registerAll_under ⟨.whenArmed, limit, shows⟩ .default registrations]
  generalize registerAll .default registrations = g at sound ⊢
  intro always whenArmed
  have agree : ∀ applications s,
      always.derive host applications s = whenArmed.derive host applications s :=
    fun applications s => (derive_under sound built.consistent _ limit shows applications s).symm
  refine ⟨agree, fun m s => (deriveAll_under sound built.consistent _ limit shows m s).symm, ?_⟩
  intro loose applications s
  have unarmed : always.armed = false := unarmed_of_loose (sound.under _) loose
  constructor
  · intro batch w resolved inserted
    exact Derivation.isForest_of_loose built.consistent
      (fun r hr => (valid_of_resolveAll (sound.under _) resolved r hr).1)
      (loose_of_unarmed (sound.under _) unarmed resolved) inserted
  · intro n
    rw [← agree]
    have never := not_oddCycle_of_unarmed (sound.under _) built.consistent unarmed applications s n
    exact ⟨never, never⟩

open Samples in
/-- Splitting all edges of a triangle at once closes no cycle of sockets. -/
theorem policies_agree_triangle :
    let always := registerAll ⟨.always, none, false⟩ [⟨splitEdge, none⟩]
    let whenArmed := registerAll ⟨.whenArmed, none, false⟩ [⟨splitEdge, none⟩]
    always.deriveAll (shaped 3 [(0, 1), (1, 2), (2, 0)]) () () =
      whenArmed.deriveAll (shaped 3 [(0, 1), (1, 2), (2, 0)]) () () ∧
    ∃ batch w, always.resolveAll (shaped 3 [(0, 1), (1, 2), (2, 0)])
        [applyAt [0, 1] [0], applyAt [1, 2] [1], applyAt [2, 0] [2]] = .ok batch ∧
      Insertion.applyAll (shaped 3 [(0, 1), (1, 2), (2, 0)]) batch
        (Cutting.applyAll (shaped 3 [(0, 1), (1, 2), (2, 0)]) batch
          ⟨.ofGraph (shaped 3 [(0, 1), (1, 2), (2, 0)]), ()⟩).wiring = .ok w ∧ w.IsForest := by
  intro always whenArmed
  have agree := policies_agree [⟨splitEdge, none⟩] none false
    (built_shaped 3 [(0, 1), (1, 2), (2, 0)])
  refine ⟨agree.2.1 () (), ?_⟩
  have loose : ∀ rule ∈ always.rules.toList, ∀ e ∈ rule.addedEdges, ¬ e.IsSpliced := by
    decide +kernel
  obtain ⟨batch, resolved⟩ := exists_of_isOk (show (always.resolveAll
    (shaped 3 [(0, 1), (1, 2), (2, 0)])
    [applyAt [0, 1] [0], applyAt [1, 2] [1], applyAt [2, 0] [2]]).isOk = true by decide +kernel)
  obtain ⟨w, inserted⟩ := exists_of_isOk (show ((always.resolveAll
    (shaped 3 [(0, 1), (1, 2), (2, 0)])
    [applyAt [0, 1] [0], applyAt [1, 2] [1], applyAt [2, 0] [2]]).bind fun batch =>
      Insertion.applyAll (shaped 3 [(0, 1), (1, 2), (2, 0)]) batch
        (Cutting.applyAll (shaped 3 [(0, 1), (1, 2), (2, 0)]) batch
          ⟨.ofGraph (shaped 3 [(0, 1), (1, 2), (2, 0)]), ()⟩).wiring).isOk = true by decide +kernel)
  rw [resolved] at inserted
  exact ⟨batch, w, resolved, inserted,
    ((agree.2.2 loose _ ()).1 batch w resolved inserted)⟩

end Grammar

end GraphSplice
