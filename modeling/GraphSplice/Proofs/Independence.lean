import GraphSplice.Proofs.Blueprint.Independence
import GraphSplice.Proofs.Derivation
import GraphSplice.Proofs.Matching
import GraphSplice.Proofs.Selection

/-!
Independent selections. What is kept of the candidates can be applied in one pass unless one of the
applications cannot be applied at all: node merges and link components that span several
applications bring no refusal of their own.
-/

namespace GraphSplice

variable {D : Domain} {host : Host D} {batch : List (Resolved D)}

/-- A batch succeeds when no application is stale, no walk odd and no socket crowded. -/
theorem Verdict.isOk_iff {x : Except ApplyError (Derivation D)} (h : Verdict host batch x) :
    x.isOk = true ↔ (∀ r ∈ batch, ¬ r.Stale batch) ∧ ¬ (Blueprint.of host batch).Odd ∧
      ∀ e side n, ¬ (Blueprint.of host batch).Crowded e side n := by
  cases h with
  | stale e stale =>
    refine ⟨nofun, fun ⟨fresh, _⟩ => ?_⟩
    obtain ⟨⟨r, hr, bad⟩, -⟩ := stale.exists_stale
    exact absurd bad (fresh r hr)
  | odd n _ first => exact ⟨nofun, fun ⟨_, balanced, _⟩ => absurd first.odd balanced⟩
  | crowded n _ _ first =>
    refine ⟨nofun, fun ⟨_, _, roomy⟩ => ?_⟩
    obtain ⟨e, side, n, crowded⟩ := Blueprint.exists_firstCrowded_iff.mp ⟨n, first⟩
    exact absurd crowded (roomy e side n)
  | derived a state fresh balanced roomy =>
    refine ⟨fun _ => ⟨fresh, balanced, ?_⟩, fun _ => rfl⟩
    intro e side n crowded
    obtain ⟨n, first⟩ := Blueprint.exists_firstCrowded_iff.mpr ⟨e, side, n, crowded⟩
    exact roomy n first

/-- Validation leaves the bound vertices as they are. -/
theorem Application.vertices_of_resolve {app : Application} {rules : Array (Rule D)}
    {r : Resolved D} (h : app.resolve rules host = .ok r) :
    r.occurrence.vertices = app.occurrence.vertices := by
  unfold resolve at h
  split at h
  · cases h
  · exact Rule.vertices_of_resolve h

theorem Verdict.ne_stale {x : Except ApplyError (Derivation D)} (h : Verdict host batch x)
    (fresh : ∀ r ∈ batch, ¬ r.Stale batch) (rule : RuleId) (application : Nat) :
    x ≠ .error (.stale rule application) := by
  rintro rfl
  cases h with
  | stale e stale =>
    obtain ⟨⟨r, hr, bad⟩, -⟩ := stale.exists_stale
    exact fresh r hr bad

namespace Grammar

variable {g : Grammar D}

/-- The application passes validation and binds distinct vertices. -/
def Admits (g : Grammar D) (host : Host D) (app : Application) : Prop :=
  (app.resolve g.rules host).isOk = true ∧ app.occurrence.vertices.Nodup

instance (g : Grammar D) (host : Host D) (app : Application) : Decidable (g.Admits host app) :=
  inferInstanceAs (Decidable (_ ∧ _))

theorem admits_of_mem_findAll (sound : g.Sound) (consistent : host.Consistent) (s : D.MatchState) :
    ∀ app ∈ (g.findAll host s).applications, g.Admits host app := by
  intro app happ
  obtain ⟨rule, found, distinct, resolves⟩ := resolves_of_mem_findAll sound consistent s app happ
  refine ⟨?_, distinct⟩
  rw [resolve_eq app found, resolves]
  rfl

/-! ## The selection -/

/-- Whatever comes first is kept, and what is kept stays so. -/
theorem ne_nil_of_keep {kept kept' : List (Application × Footprint)} {app : Application}
    (h : g.keep host kept app = .ok kept') : kept' ≠ [] := by
  unfold keep at h
  obtain ⟨f, -, h⟩ := bind_ok h
  cases h
  split
  · simp
  · next crossed =>
    rintro rfl
    exact crossed rfl

theorem ne_nil_of_selectIndependent {candidates kept : List Application}
    (nonempty : candidates ≠ []) (h : g.selectIndependent host candidates = .ok kept) :
    kept ≠ [] := by
  cases candidates with
  | nil => exact absurd rfl nonempty
  | cons app rest =>
    unfold selectIndependent at h
    cases ran : (app :: rest).foldlM (g.keep host) [] with
    | error e =>
      rw [ran] at h
      cases h
    | ok pairs =>
      rw [ran] at h
      cases h
      rw [List.foldlM_cons] at ran
      obtain ⟨first, kept, later⟩ := bind_ok ran
      have some := foldlM_keeps (P := fun pairs => pairs ≠ [])
        (fun _ _ _ _ step => ne_nil_of_keep step) (ne_nil_of_keep kept) later
      simpa using some

/-- A single application resolves to a batch of its own. -/
theorem resolveAll_singleton {app : Application} {r : Resolved D}
    (h : app.resolve g.rules host = .ok r) : g.resolveAll host [app] = .ok [r] :=
  mapM_of_forall₂ (.cons h .nil)

/-- Independent applications of distinct vertices stay apart. -/
theorem apart_of_independent (sound : g.Sound) (consistent : host.Consistent)
    {applications : List Application}
    (resolved : List.Forall₂ (fun (app : Application) r => app.resolve g.rules host = .ok r)
      applications batch)
    (distinct : ∀ app ∈ applications, app.occurrence.vertices.Nodup)
    (independent : batch.Pairwise fun r s =>
      (Footprint.of host s).independent (Footprint.of host r) = true) : Apart host batch := by
  have valid := fun r hr => (valid_of_resolveAll sound (mapM_of_forall₂ resolved) r hr).1
  refine ⟨valid, ?_, ?_⟩
  · intro r hr
    obtain ⟨i, found⟩ := List.getElem?_of_mem hr
    obtain ⟨app, there, resolves⟩ := (forall₂_getElem? resolved i).2 r found
    rw [Application.vertices_of_resolve resolves]
    exact distinct app (List.mem_of_getElem? there)
  · apply independent.imp_of_mem
    intro r s hr hs apart
    refine ⟨Footprint.spares_of_independent consistent (valid s hs) ?_,
      Footprint.spares_of_independent consistent (valid r hr) apart⟩
    exact Footprint.independent_symm (Footprint.ordered_of host s) (Footprint.ordered_of host r)
      apart

/-- Applications that stay apart succeed together just when each of them succeeds alone. -/
theorem isOk_derive_iff (grown : g.Grown) (consistent : host.Consistent)
    {applications : List Application}
    (resolved : List.Forall₂ (fun (app : Application) r => app.resolve g.rules host = .ok r)
      applications batch) (apart : Apart host batch) (s s' : D.BuildState) :
    (g.derive host applications s).result.isOk = true ↔ ∀ app ∈ applications,
      (g.deriveOne host app.rule app.occurrence s').result.isOk = true := by
  have nodup : ∀ {batch}, Apart host batch → (Blueprint.of host batch).links.Nodup :=
    fun apart => (Derivation.grounded_of consistent apart.valid s apart.fresh).links
  have alone : ∀ (app : Application), ∀ r ∈ batch, app.resolve g.rules host = .ok r →
      ((g.deriveOne host app.rule app.occurrence s').result.isOk = true ↔
        ¬ (Blueprint.of host [r]).Odd ∧
          ∀ e side n, ¬ (Blueprint.of host [r]).Crowded e side n) := by
    intro app r hr resolves
    have verdict := verdict grown consistent (resolveAll_singleton resolves) s'
    exact verdict.isOk_iff.trans (and_iff_right (apart.single hr).fresh)
  have together := (verdict grown consistent (mapM_of_forall₂ resolved) s).isOk_iff.trans
    (and_iff_right apart.fresh)
  rw [together, apart.odd_iff]
  simp only [apart.crowded_iff (nodup apart) fun r hr => nodup (apart.single hr)]
  constructor
  · rintro ⟨balanced, roomy⟩ app happ
    obtain ⟨i, found⟩ := List.getElem?_of_mem happ
    obtain ⟨r, there, resolves⟩ := (forall₂_getElem? resolved i).1 app found
    have hr := List.mem_of_getElem? there
    exact (alone app r hr resolves).mpr ⟨fun odd => balanced ⟨r, hr, odd⟩,
      fun e side n crowded => roomy e side n ⟨r, hr, crowded⟩⟩
  · intro each
    have fine : ∀ r ∈ batch, ¬ (Blueprint.of host [r]).Odd ∧
        ∀ e side n, ¬ (Blueprint.of host [r]).Crowded e side n := by
      intro r hr
      obtain ⟨i, found⟩ := List.getElem?_of_mem hr
      obtain ⟨app, there, resolves⟩ := (forall₂_getElem? resolved i).2 r found
      exact (alone app r hr resolves).mp (each app (List.mem_of_getElem? there))
    exact ⟨fun ⟨r, hr, odd⟩ => (fine r hr).1 odd,
      fun e side n ⟨r, hr, crowded⟩ => (fine r hr).2 e side n crowded⟩

/-- The applications kept of valid candidates that bind distinct vertices, as all do that a search
finds, are never stale together, and the batch succeeds just when each of them succeeds alone. So
it always does if no rule has an edge spliced at both ends. -/
theorem selectIndependent_safe (grown : g.Grown) (built : host.Built) :
    (∀ m, ∀ app ∈ (g.findAll host m).applications, g.Admits host app) ∧
    ∀ candidates, (∀ app ∈ candidates, g.Admits host app) →
      ∃ kept, g.selectIndependent host candidates = .ok kept ∧ ∀ s,
        (∀ rule application,
          (g.derive host kept s).result ≠ .error (.stale rule application)) ∧
        (∀ s', (g.derive host kept s).result.isOk = true ↔ ∀ app ∈ kept,
          (g.deriveOne host app.rule app.occurrence s').result.isOk = true) ∧
        ((∀ rule ∈ g.rules.toList, ∀ e ∈ rule.addedEdges, ¬ e.IsSpliced) →
          (g.derive host kept s).result.isOk = true) := by
  have consistent := built.consistent
  refine ⟨admits_of_mem_findAll grown.sound consistent, ?_⟩
  intro candidates admitted
  obtain ⟨kept, batch, selected, inside, resolved, independent⟩ :=
    exists_selection fun app happ => (admitted app happ).1
  have apart : Apart host batch := apart_of_independent grown.sound consistent resolved
    (fun app happ => (admitted app (inside app happ)).2) independent
  have resolvedAll : g.resolveAll host kept = .ok batch := mapM_of_forall₂ resolved
  refine ⟨kept, selected, ?_⟩
  intro s
  have verdict := verdict grown consistent resolvedAll s
  refine ⟨verdict.ne_stale apart.fresh, isOk_derive_iff grown consistent resolved apart s, ?_⟩
  intro loose
  have links : ∀ x ∈ (Blueprint.of host batch).links, (∃ e, x.origin = .host e) ∨
      ∃ side p side', x.ends.get side = .fresh p side' :=
    Blueprint.fresh_of_loose
      (loose_of_unarmed grown.sound (unarmed_of_loose grown.sound loose) resolvedAll)
  have proper := Blueprint.proper_of apart.valid
  have grounded := Derivation.grounded_of consistent apart.valid s apart.fresh
  exact verdict.isOk_iff.mpr
    ⟨apart.fresh, proper.not_odd links, proper.not_crowded grounded.links links⟩

open Samples in
/-- Of the occurrences on a star, those that a search finds, a selection bridges spokes once. -/
theorem selectIndependent_safe_star :
    let g := single bridgeSpokes
    let star := shaped 5 [(0, 1), (0, 2), (0, 3), (0, 4)]
    let candidates := [applyAt [0, 1, 2] [0, 1], applyAt [0, 2, 3] [1, 2], applyAt [0, 3, 4] []]
    (∀ app ∈ (g.findAll star ()).applications, g.Admits star app) ∧
    ∃ kept, g.selectIndependent star candidates = .ok kept ∧ kept.length = 2 ∧
      (∀ rule application, (g.derive star kept ()).result ≠ .error (.stale rule application)) ∧
      (g.derive star kept ()).result.isOk = true := by
  intro g star candidates
  obtain ⟨admits, safe⟩ := selectIndependent_safe (grown_single bridgeSpokes)
    (built_shaped 5 [(0, 1), (0, 2), (0, 3), (0, 4)])
  refine ⟨admits (), ?_⟩
  obtain ⟨kept, selected, all⟩ := safe candidates (by decide +kernel)
  obtain ⟨kept', selected', two, each⟩ : ∃ kept, g.selectIndependent star candidates = .ok kept ∧
      kept.length = 2 ∧
      ∀ app ∈ kept, (g.deriveOne star app.rule app.occurrence ()).result.isOk = true :=
    exists_of_check (by decide +kernel)
  obtain rfl : kept = kept' := Except.ok.inj (selected.symm.trans selected')
  exact ⟨kept, selected, two, (all ()).1, ((all ()).2.1 ()).mpr each⟩

end Grammar

end GraphSplice
