import GraphSplice.Grammar
import GraphSplice.Proofs.Blueprint.Insertion
import GraphSplice.Proofs.Blueprint.Refusal
import GraphSplice.Proofs.Blueprint.Yield
import GraphSplice.Proofs.Samples
import GraphSplice.Proofs.Wiring.Assembly

/-!
What a derivation comes to. A batch is refused for a stale application, for an odd component or for
a crowded socket, in this order, or the derived graph is the one that the blueprint of the batch
describes.
-/

namespace GraphSplice

open Wiring

variable {D : Domain} {host : Host D} {batch : List (Resolved D)}

/-- No callback runs on what the rule creates. -/
def Rule.IsSilent (r : Rule D) : Prop :=
  (∀ x ∈ r.addedVertices, x.creation = none) ∧ ∀ x ∈ r.addedEdges, x.creation = none

instance (r : Rule D) : Decidable r.IsSilent := inferInstanceAs (Decidable (_ ∧ _))

/-- What becomes of a batch, told from its blueprint. -/
inductive Outcome (host : Host D) (batch : List (Resolved D)) :
    Except ApplyError (Derivation D) → Prop
  | stale (e : ApplyError) : FirstStale batch e → Outcome host batch (.error e)
  | odd (n : Nat) : (∀ r ∈ batch, ¬ r.Stale batch) → (Blueprint.of host batch).FirstOdd n →
      Outcome host batch (.error (.oddCycle n))
  | crowded (n : Nat) : (∀ r ∈ batch, ¬ r.Stale batch) → ¬ (Blueprint.of host batch).Odd →
      (Blueprint.of host batch).FirstCrowded n →
      Outcome host batch (.error (.malformedSocket 1 n))
  | derived (d : Derivation D) : (∀ r ∈ batch, ¬ r.Stale batch) →
      ¬ (Blueprint.of host batch).Odd → (∀ n, ¬ (Blueprint.of host batch).FirstCrowded n) →
      (Blueprint.of host batch).Yields host d → Outcome host batch (.ok d)

/-- What becomes of a batch whose creation callbacks may change the graph: they run on the one
that the blueprint describes. -/
inductive Verdict (host : Host D) (batch : List (Resolved D)) :
    Except ApplyError (Derivation D) → Prop
  | stale (e : ApplyError) : FirstStale batch e → Verdict host batch (.error e)
  | odd (n : Nat) : (∀ r ∈ batch, ¬ r.Stale batch) → (Blueprint.of host batch).FirstOdd n →
      Verdict host batch (.error (.oddCycle n))
  | crowded (n : Nat) : (∀ r ∈ batch, ¬ r.Stale batch) → ¬ (Blueprint.of host batch).Odd →
      (Blueprint.of host batch).FirstCrowded n →
      Verdict host batch (.error (.malformedSocket 1 n))
  | derived (a : Assembly D.Node D.Arc) (state : D.BuildState) :
      (∀ r ∈ batch, ¬ r.Stale batch) → ¬ (Blueprint.of host batch).Odd →
      (∀ n, ¬ (Blueprint.of host batch).FirstCrowded n) →
      (Blueprint.of host batch).Yields host
        ⟨a.graph, a.createdVertices.map (·.1), a.createdEdges.map (·.1)⟩ →
      Verdict host batch (.ok ⟨(Creation.run host batch a state).1,
        a.createdVertices.map (·.1), a.createdEdges.map (·.1)⟩)

/-- What becomes of a batch and of the state of the caller, which is `cut` after all cuts: a refusal
leaves that state, and what is built is handed to the creation callbacks with it. -/
inductive Accounts (host : Host D) (batch : List (Resolved D)) (cut : D.BuildState) :
    Except ApplyError (Derivation D) → D.BuildState → Prop
  | refused (e : ApplyError) : Verdict host batch (.error e) →
      Accounts host batch cut (.error e) cut
  | built (a : Assembly D.Node D.Arc) : (∀ r ∈ batch, ¬ r.Stale batch) →
      ¬ (Blueprint.of host batch).Odd → (∀ n, ¬ (Blueprint.of host batch).FirstCrowded n) →
      (Blueprint.of host batch).Yields host
        ⟨a.graph, a.createdVertices.map (·.1), a.createdEdges.map (·.1)⟩ →
      (Blueprint.of host batch).Credits a → a.graph.Consistent →
      (∃ links, (Blueprint.of host batch).Attributes host links a) →
      Accounts host batch cut (.ok ⟨(Creation.run host batch a cut).1,
        a.createdVertices.map (·.1), a.createdEdges.map (·.1)⟩) (Creation.run host batch a cut).2

theorem Accounts.verdict {cut s : D.BuildState} {x : Except ApplyError (Derivation D)}
    (h : Accounts host batch cut x s) : Verdict host batch x := by
  cases h with
  | refused e verdict => exact verdict
  | built a fresh balanced roomy yields => exact .derived a cut fresh balanced roomy yields

theorem FirstStale.exists_stale {e : ApplyError} (h : FirstStale batch e) :
    (∃ r ∈ batch, r.Stale batch) ∧ ∃ rule application, e = .stale rule application := by
  obtain ⟨a, r, found, stale, -, rfl⟩ := h
  exact ⟨⟨r, List.mem_of_getElem? found, stale⟩, _, _, rfl⟩

namespace Outcome

variable {x : Except ApplyError (Derivation D)}

/-- The outcome of a batch that is not stale. -/
theorem fresh_cases (h : Outcome host batch x) (fresh : ∀ r ∈ batch, ¬ r.Stale batch) :
    (∃ n, (Blueprint.of host batch).FirstOdd n ∧ x = .error (.oddCycle n)) ∨
    (∃ n, ¬ (Blueprint.of host batch).Odd ∧ (Blueprint.of host batch).FirstCrowded n ∧
      x = .error (.malformedSocket 1 n)) ∨
    ∃ d, ¬ (Blueprint.of host batch).Odd ∧ (∀ n, ¬ (Blueprint.of host batch).FirstCrowded n) ∧
      (Blueprint.of host batch).Yields host d ∧ x = .ok d := by
  cases h with
  | stale e stale =>
    obtain ⟨⟨r, hr, bad⟩, -⟩ := stale.exists_stale
    exact absurd bad (fresh r hr)
  | odd n _ first => exact .inl ⟨n, first, rfl⟩
  | crowded n _ balanced first => exact .inr (.inl ⟨n, balanced, first, rfl⟩)
  | derived d _ balanced roomy yields => exact .inr (.inr ⟨d, balanced, roomy, yields, rfl⟩)

/-- The outcome of a batch that is stale. -/
theorem stale_of (h : Outcome host batch x) {r : Resolved D} (hr : r ∈ batch)
    (bad : r.Stale batch) : ∃ rule application, x = .error (.stale rule application) := by
  cases h with
  | stale e stale =>
    obtain ⟨-, rule, application, rfl⟩ := stale.exists_stale
    exact ⟨rule, application, rfl⟩
  | odd n fresh => exact absurd bad (fresh r hr)
  | crowded n fresh => exact absurd bad (fresh r hr)
  | derived d fresh => exact absurd bad (fresh r hr)

end Outcome

namespace Creation

variable {state : D.BuildState}

/-- Without creation callbacks nothing is changed any more. -/
theorem run_of_isSilent (silent : ∀ r ∈ batch, r.rule.IsSilent) (a : Assembly D.Node D.Arc) :
    run host batch a state = (a.graph, state) := by
  have vertices : ∀ (out : Host D × D.BuildState) (x : VertexId × Provenance),
      createVertex host batch out x = out := by
    intro out x
    unfold createVertex
    split
    · rfl
    · next r found =>
      split
      · rfl
      · next run there =>
        obtain ⟨added, mem, callback⟩ := Option.bind_eq_some_iff.mp there
        rw [(silent r (List.mem_of_getElem? found)).1 added (List.mem_of_getElem? mem)] at callback
        cases callback
  have edges : ∀ (out : Host D × D.BuildState) (x : EdgeId × Provenance),
      createEdge host batch out x = out := by
    intro out x
    unfold createEdge
    split
    · rfl
    · next r found =>
      split
      · rfl
      · next run there =>
        obtain ⟨added, mem, callback⟩ := Option.bind_eq_some_iff.mp there
        rw [(silent r (List.mem_of_getElem? found)).2 added (List.mem_of_getElem? mem)] at callback
        cases callback
  unfold run
  rw [List.foldl_fixed' (fun x => vertices _ x), List.foldl_fixed' (fun x => edges _ x)]

end Creation

/-- Without creation callbacks the derived graph is the one that the blueprint describes. -/
theorem Verdict.outcome {x : Except ApplyError (Derivation D)} (h : Verdict host batch x)
    (silent : ∀ r ∈ batch, r.rule.IsSilent) : Outcome host batch x := by
  cases h with
  | stale e stale => exact .stale e stale
  | odd n fresh first => exact .odd n fresh first
  | crowded n fresh balanced first => exact .crowded n fresh balanced first
  | derived a state fresh balanced roomy yields =>
    rw [Creation.run_of_isSilent silent]
    exact .derived _ fresh balanced roomy yields

namespace Derivation

/-- The wiring after cutting and insertion realizes the blueprint, or the batch is stale. -/
theorem inserted_spec (consistent : host.Consistent) (valid : ∀ r ∈ batch, r.Valid host)
    (state : D.BuildState) :
    match Insertion.applyAll host batch
      (Cutting.applyAll host batch ⟨.ofGraph host, state⟩).wiring with
    | .error e => FirstStale batch e
    | .ok w => (∀ r ∈ batch, ¬ r.Stale batch) ∧ ∃ L, Realizes host
        (Blueprint.of host batch).owner (Blueprint.of host batch).outline L w := by
  have trimmed : Trimmed host (CutsVertex batch) (CutsEdge batch)
      (Cutting.applyAll host batch ⟨.ofGraph host, state⟩).wiring := by
    have cut := Cutting.trimmed_applyAll consistent batch valid _ _ ⟨.ofGraph host, state⟩
      (trimmed_ofGraph consistent)
    exact cut.congr (by simp) (by simp)
  have real := Blueprint.realizes_trimmed consistent trimmed
  refine Insertion.applyAll_spec valid (real.congr_present ?_)
  intro s
  cases s with
  | host e side => exact Iff.rfl
  | fresh p side => simp [Blueprint.HostPresent, Blueprint.Present]

/-- Where no application is stale, every socket of the blueprint has its owner. -/
theorem grounded_of (consistent : host.Consistent) (valid : ∀ r ∈ batch, r.Valid host)
    (state : D.BuildState) (fresh : ∀ r ∈ batch, ¬ r.Stale batch) :
    (Blueprint.of host batch).Grounded host := by
  have inserted := inserted_spec consistent valid state
  cases insertion : Insertion.applyAll host batch
      (Cutting.applyAll host batch ⟨.ofGraph host, state⟩).wiring with
  | error e =>
    rw [insertion] at inserted
    obtain ⟨a, r, found, stale, -⟩ := inserted
    exact absurd stale (fresh r (List.mem_of_getElem? found))
  | ok w =>
    rw [insertion] at inserted
    obtain ⟨-, L, real⟩ := inserted
    exact real.grounded (Blueprint.proper_of valid)

/-- Building from a settled wiring fails for a crowded socket only. -/
theorem accounts_build (consistent : host.Consistent) (valid : ∀ r ∈ batch, r.Valid host)
    (state : D.BuildState) (fresh : ∀ r ∈ batch, ¬ r.Stale batch) {L : Layout} {w w' : Wiring}
    {p q : Nat → Nat}
    (real : Realizes host (Blueprint.of host batch).owner (Blueprint.of host batch).outline L w)
    (balanced : ∀ j, ¬ OnOddWalk w.LinkedTo j)
    (settled : Settled w (Realizes.ownerAt (Blueprint.of host batch) L) p q w') :
    Accounts host batch state (build host batch w' state).result
      (build host batch w' state).state := by
  have proper := Blueprint.proper_of valid
  have even : ¬ (Blueprint.of host batch).Odd := by
    intro odd
    obtain ⟨j, odd'⟩ := real.odd_iff.mpr odd
    exact balanced j odd'
  have checked := real.malformation?_spec proper balanced settled
  cases malformed : w'.malformation? with
  | some m =>
    rw [malformed] at checked
    obtain ⟨one, crowded⟩ := checked
    have refused : w'.assemble host D.freshNode D.freshArc = .error (.malformed m) := by
      unfold assemble
      rw [malformed]
    obtain ⟨attachments, links⟩ := m
    simp only at one
    subst one
    unfold build
    rw [refused]
    exact .refused _ (.crowded links fresh even crowded)
  | none =>
    rw [malformed] at checked
    obtain ⟨roomy, single⟩ := checked
    obtain ⟨a, assembled, yields, credits, attributes⟩ :=
      real.yields consistent proper even settled malformed single
    unfold build
    rw [assembled]
    exact .built a fresh even roomy yields credits (consistent_assemble assembled) attributes

/-- What a derivation comes to, where odd walks are checked or there are none. -/
theorem accounts (consistent : host.Consistent) (valid : ∀ r ∈ batch, r.Valid host)
    (state : D.BuildState) (options : Options)
    (checked : options.checkParity = true ∨ ¬ (Blueprint.of host batch).Odd) :
    Accounts host batch (Cutting.applyAll host batch ⟨.ofGraph host, state⟩).state
      (derive host batch state options).result (derive host batch state options).state := by
  have inserted := inserted_spec consistent valid state
  unfold derive
  dsimp only
  cases insertion : Insertion.applyAll host batch
      (Cutting.applyAll host batch ⟨.ofGraph host, state⟩).wiring with
  | error e =>
    rw [insertion] at inserted
    exact .refused e (.stale e inserted)
  | ok w =>
    rw [insertion] at inserted
    obtain ⟨fresh, L, real⟩ := inserted
    have checked' : options.checkParity = true ∨ ∀ j, ¬ OnOddWalk w.LinkedTo j := by
      refine checked.imp id ?_
      intro none j odd
      exact none (real.odd_iff.mp ⟨j, odd⟩)
    have reconciled := reconcile_spec real.sound real.rooted options.checkParity checked'
    dsimp only
    cases reconciliation : reconcile w options.checkParity with
    | error e =>
      rw [reconciliation] at reconciled
      obtain ⟨c, start, rfl, component, odd, lowest⟩ := reconciled
      exact .refused _
        (.odd _ fresh (real.firstOdd (Blueprint.proper_of valid) component odd lowest))
    | ok result =>
      rw [reconciliation] at reconciled
      obtain ⟨balanced, p, q, settled⟩ := reconciled
      exact accounts_build consistent valid _ fresh real balanced settled

theorem verdict (consistent : host.Consistent) (valid : ∀ r ∈ batch, r.Valid host)
    (state : D.BuildState) (options : Options)
    (checked : options.checkParity = true ∨ ¬ (Blueprint.of host batch).Odd) :
    Verdict host batch (derive host batch state options).result :=
  (accounts consistent valid state options checked).verdict

/-- A derived graph is assembled from some wiring and handed to the creation callbacks. -/
theorem exists_assembled_of_derive {state : D.BuildState} {options : Options} {d : Derivation D}
    (h : (derive host batch state options).result = .ok d) :
    ∃ (w : Wiring) (a : Assembly D.Node D.Arc) (after : D.BuildState),
      w.assemble host D.freshNode D.freshArc = .ok a ∧
        d.graph = (Creation.run host batch a after).1 := by
  unfold derive at h
  dsimp only at h
  split at h
  · cases h
  · split at h
    · cases h
    · next w _ r _ =>
      change (build host batch r.wiring _).result = .ok d at h
      unfold build at h
      split at h
      · cases h
      · next a assembled =>
        cases h
        exact ⟨r.wiring, a, _, assembled, rfl⟩

/-- A derived graph is consistent. -/
theorem consistent_of_derive (silent : ∀ r ∈ batch, r.rule.IsSilent) {state : D.BuildState}
    {options : Options} {d : Derivation D} (h : (derive host batch state options).result = .ok d) :
    d.graph.Consistent := by
  obtain ⟨w, a, after, assembled, made⟩ := exists_assembled_of_derive h
  rw [made, Creation.run_of_isSilent silent]
  exact consistent_assemble assembled

end Derivation

namespace Grammar

/-- An unarmed grammar resolves to rules without edges that are spliced at both ends. -/
theorem loose_of_unarmed {g : Grammar D} (sound : g.Sound) (unarmed : g.armed = false)
    {applications : List Application} (h : g.resolveAll host applications = .ok batch) :
    ∀ r ∈ batch, r.rule.hasPotentialLoop = false := by
  intro r hr
  obtain ⟨-, app, -, found⟩ := valid_of_resolveAll sound h r hr
  rw [sound.armed, List.any_eq_false] at unarmed
  have member : r.rule ∈ g.rules.toList := by
    apply List.mem_of_getElem? (i := app.rule.slot)
    rw [Array.getElem?_toList]
    exact found
  simpa using unarmed r.rule member

theorem unarmed_of_loose {g : Grammar D} (sound : g.Sound)
    (loose : ∀ rule ∈ g.rules.toList, ∀ e ∈ rule.addedEdges, ¬ e.IsSpliced) : g.armed = false := by
  rw [Bool.eq_false_iff]
  intro armed
  obtain ⟨rule, hr, e, he, spliced⟩ := sound.armed_iff.mp armed
  exact loose rule (Array.mem_toList_iff.mpr hr) e he spliced

theorem not_odd_of_unarmed {g : Grammar D} (sound : g.Sound) (unarmed : g.armed = false)
    {applications : List Application} (h : g.resolveAll host applications = .ok batch) :
    ¬ (Blueprint.of host batch).Odd :=
  Blueprint.not_odd_of (fun r hr => (valid_of_resolveAll sound h r hr).1)
    (loose_of_unarmed sound unarmed h)

/-- A derivation is checked for odd walks unless no rule can close one. -/
theorem checked_of_resolveAll {g : Grammar D} (sound : g.Sound) {applications : List Application}
    (h : g.resolveAll host applications = .ok batch) :
    g.options.checkParity = true ∨ ¬ (Blueprint.of host batch).Odd := by
  cases check : g.options.checkParity with
  | true => exact .inl rfl
  | false =>
    have unarmed : g.armed = false := by
      unfold options ParityPolicy.shouldCheck at check
      cases policy : g.settings.parity with
      | always => simp [policy] at check
      | whenArmed => simpa [policy] using check
    exact .inr (not_odd_of_unarmed sound unarmed h)

/-- The rules of the applications run no callback on what they create. -/
def SilentOn (g : Grammar D) (applications : List Application) : Prop :=
  ∀ app ∈ applications, ∀ rule ∈ g.rule? app.rule, rule.IsSilent

instance (g : Grammar D) (applications : List Application) :
    Decidable (g.SilentOn applications) :=
  inferInstanceAs (Decidable (∀ app ∈ applications, ∀ rule ∈ g.rule? app.rule, _))

theorem silentOn_singleton {g : Grammar D} {app : Application} {rule : Rule D}
    (found : g.rule? app.rule = some rule) (silent : rule.IsSilent) : g.SilentOn [app] := by
  intro app' happ rule' hrule
  obtain rfl := List.mem_singleton.mp happ
  cases found.symm.trans hrule
  exact silent

theorem isSilent_of_resolveAll {g : Grammar D} (sound : g.Sound) {applications : List Application}
    (h : g.resolveAll host applications = .ok batch) (silent : g.SilentOn applications) :
    ∀ r ∈ batch, r.rule.IsSilent := by
  intro r hr
  obtain ⟨-, app, happ, found⟩ := valid_of_resolveAll sound h r hr
  exact silent app happ r.rule found

/-- A successful derivation is that of the resolved batch. -/
theorem derive_ok {g : Grammar D} {applications : List Application} {state : D.BuildState}
    {d : Derivation D} (h : (g.derive host applications state).result = .ok d) :
    ∃ batch, g.resolveAll host applications = .ok batch ∧
      (Derivation.derive host batch state g.options).result = .ok d := by
  unfold derive at h
  split at h
  · cases h
  · next batch resolved =>
    refine ⟨batch, resolved, ?_⟩
    dsimp only at h
    split at h
    · next e failed =>
      rw [failed] at h
      cases h
    · exact h

theorem consistent_of_derive {g : Grammar D} (grown : g.Grown) {applications : List Application}
    (silent : g.SilentOn applications) {state : D.BuildState} {d : Derivation D}
    (h : (g.derive host applications state).result = .ok d) : d.graph.Consistent := by
  obtain ⟨batch, resolved, derived⟩ := derive_ok h
  exact Derivation.consistent_of_derive (isSilent_of_resolveAll grown.sound resolved silent) derived

/-- A derivation answers as that of the resolved batch. -/
theorem answer_derive {g : Grammar D} {applications : List Application}
    (h : g.resolveAll host applications = .ok batch) (state : D.BuildState) :
    (g.derive host applications state).result =
        (Derivation.derive host batch state g.options).result ∧
      (g.derive host applications state).state =
        (Derivation.derive host batch state g.options).state := by
  unfold derive
  rw [h]
  dsimp only
  cases found : (Derivation.derive host batch state g.options).result with
  | error e => exact ⟨found, rfl⟩
  | ok d => exact ⟨rfl, rfl⟩

/-- What the derivation by a batch of applications comes to once they are resolved. -/
theorem accounts {g : Grammar D} (grown : g.Grown) (consistent : host.Consistent)
    {applications : List Application} (h : g.resolveAll host applications = .ok batch)
    (state : D.BuildState) :
    Accounts host batch (Cutting.applyAll host batch ⟨.ofGraph host, state⟩).state
      (g.derive host applications state).result (g.derive host applications state).state := by
  obtain ⟨result, after⟩ := answer_derive h state
  rw [result, after]
  apply Derivation.accounts consistent _ state g.options (checked_of_resolveAll grown.sound h)
  exact fun r hr => (valid_of_resolveAll grown.sound h r hr).1

theorem verdict {g : Grammar D} (grown : g.Grown) (consistent : host.Consistent)
    {applications : List Application} (h : g.resolveAll host applications = .ok batch)
    (state : D.BuildState) : Verdict host batch (g.derive host applications state).result :=
  (accounts grown consistent h state).verdict

theorem outcome {g : Grammar D} (grown : g.Grown) (consistent : host.Consistent)
    {applications : List Application} (h : g.resolveAll host applications = .ok batch)
    (silent : g.SilentOn applications) (state : D.BuildState) :
    Outcome host batch (g.derive host applications state).result :=
  (verdict grown consistent h state).outcome (isSilent_of_resolveAll grown.sound h silent)

/-- A derived graph is the one that the blueprint of the batch describes. -/
theorem yields_of_derive {g : Grammar D} (grown : g.Grown) (built : host.Built)
    {applications : List Application} (silent : g.SilentOn applications) {state : D.BuildState}
    {d : Derivation D} (h : (g.derive host applications state).result = .ok d) :
    ∃ batch, g.resolveAll host applications = .ok batch ∧
      (Blueprint.of host batch).Yields host d := by
  obtain ⟨batch, resolved, -⟩ := derive_ok h
  refine ⟨batch, resolved, ?_⟩
  have derived := outcome grown built.consistent resolved silent state
  rw [h] at derived
  cases derived with
  | derived _ _ _ _ yields => exact yields

open Samples in
/-- Both edges of a path are split at once. -/
theorem yields_of_derive_path : ∃ d,
    ((single splitEdge).derive (shaped 3 [(0, 1), (1, 2)])
      [applyAt [0, 1] [0], applyAt [1, 2] [1]] ()).result = .ok d ∧
    ∃ batch, (single splitEdge).resolveAll (shaped 3 [(0, 1), (1, 2)])
      [applyAt [0, 1] [0], applyAt [1, 2] [1]] = .ok batch ∧
    (Blueprint.of (shaped 3 [(0, 1), (1, 2)]) batch).Yields (shaped 3 [(0, 1), (1, 2)]) d := by
  have succeeds : ((single splitEdge).derive (shaped 3 [(0, 1), (1, 2)])
      [applyAt [0, 1] [0], applyAt [1, 2] [1]] ()).result.isOk = true := by decide +kernel
  obtain ⟨d, h⟩ := exists_of_isOk succeeds
  exact ⟨d, h, yields_of_derive (grown_single _) (built_shaped _ _) (by decide +kernel) h⟩

end Grammar

end GraphSplice
