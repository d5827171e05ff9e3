import GraphSplice.Proofs.Blueprint.Replacement

/-!
The removal callbacks of a batch whose applications keep apart and cut no vertex: each cut edge is
told once, in order.
-/

namespace GraphSplice

open Wiring Blueprint

variable {D : Domain} {host : Host D} {batch : List (Resolved D)}

namespace Cutting

/-- The callback of a matched edge that is cut. -/
def tellEdge (context : BuildContext D) (s : D.BuildState) (x : MatchedEdge D × EdgeId) :
    D.BuildState :=
  match x.1.fate with
  | .kept => s
  | .cut removal => removal.elim s fun run => run context x.2 s

def tell (host : Host D) (s : D.BuildState) (r : Resolved D) : D.BuildState :=
  (r.rule.edges.zip r.occurrence.edges).foldl (tellEdge (r.context host)) s

theorem state_cutEdge {context : BuildContext D} {c : Cutting D} {x : MatchedEdge D × EdgeId}
    (there : x.1.fate.isCut = true → c.wiring.HasHostLink x.2) :
    (cutEdge context c x).state = tellEdge context c.state x := by
  unfold cutEdge tellEdge
  cases fate : x.1.fate with
  | kept => rfl
  | cut removal =>
    dsimp only
    rw [if_pos (there (by rw [fate]; rfl))]

/-- Without cut vertices the link of an edge is there until the edge is cut. -/
theorem hasHostLink_of_uncut {F : EdgeId → Prop} {w : Wiring}
    (trimmed : Trimmed host (fun _ => False) F w) {e : EdgeId}
    (known : ∃ record, host.edge? e = some record) (uncut : ¬ F e) : w.HasHostLink e := by
  obtain ⟨record, found⟩ := known
  rw [trimmed.hasHostLink_iff found, (trimmed.link e record found _).mpr ⟨⟨uncut, id, id⟩, rfl⟩]
  rfl

theorem state_cutEdges (context : BuildContext D) (xs : List (MatchedEdge D × EdgeId))
    (known : ∀ x ∈ xs, ∃ record, host.edge? x.2 = some record)
    (distinct : (xs.map (·.2)).Nodup) : ∀ (F : EdgeId → Prop) (c : Cutting D),
      Trimmed host (fun _ => False) F c.wiring → (∀ x ∈ xs, x.1.fate.isCut = true → ¬ F x.2) →
      (xs.foldl (cutEdge context) c).state = xs.foldl (tellEdge context) c.state := by
  induction xs with
  | nil => exact fun _ _ _ _ => rfl
  | cons x rest ih =>
    intro F c trimmed uncut
    obtain ⟨fresh, distinct⟩ := List.nodup_cons.mp distinct
    have hx := known x List.mem_cons_self
    have step := trimmed_cutEdges context [x] (by simpa using hx) F c trimmed
    rw [List.foldl_cons, List.foldl_cons, ← state_cutEdge fun cut =>
      hasHostLink_of_uncut trimmed hx (uncut x List.mem_cons_self cut)]
    refine ih (fun y hy => known y (List.mem_cons_of_mem x hy)) distinct _ _ step ?_
    intro y hy cut
    rintro (before | ⟨z, hz, -, same⟩)
    · exact uncut y (List.mem_cons_of_mem x hy) cut before
    · obtain rfl := List.mem_singleton.mp hz
      exact fresh (List.mem_map.mpr ⟨y, hy, same.symm⟩)

theorem cutVertices_of_kept (context : BuildContext D) {xs : List (MatchedVertex D × VertexId)}
    (kept : ∀ x ∈ xs, x.1.fate.isCut = false) (c : Cutting D) :
    xs.foldl (cutVertex context) c = c := by
  induction xs with
  | nil => rfl
  | cons x rest ih =>
    have same : cutVertex context c x = c := by
      have fate := kept x List.mem_cons_self
      unfold cutVertex
      split
      · rfl
      · next cut =>
        rw [cut] at fate
        cases fate
    rw [List.foldl_cons, same]
    exact ih fun y hy => kept y (List.mem_cons_of_mem x hy)

theorem state_apply {r : Resolved D} (valid : r.Valid host) (distinct : r.occurrence.edges.Nodup)
    (steady : ∀ v, ¬ CutsVertex [r] v) {F : EdgeId → Prop} {c : Cutting D}
    (trimmed : Trimmed host (fun _ => False) F c.wiring) (uncut : ∀ e, CutsEdge [r] e → ¬ F e) :
    (apply host c r).state = tell host c.state r := by
  have kept : ∀ x ∈ r.rule.vertices.zip r.occurrence.vertices, x.1.fate.isCut = false := by
    intro x hx
    by_contra cut
    exact steady x.2 (cutsVertex_singleton_iff.mpr ⟨x, hx, by simpa using cut, rfl⟩)
  unfold apply tell
  dsimp only
  rw [cutVertices_of_kept _ kept]
  apply state_cutEdges _ _ _ _ F c trimmed
  · exact fun x hx cut => uncut x.2 (cutsEdge_singleton_iff.mpr ⟨x, hx, cut, rfl⟩)
  · exact fun x hx => valid.edge_of_mem_zip hx
  · rw [List.map_snd_zip valid.edgeArity.le]
    exact distinct

/-- The state of the caller after all cuts. -/
theorem state_applyAll (consistent : host.Consistent) : ∀ (batch : List (Resolved D)),
    Separate host batch → (∀ v, ¬ CutsVertex batch v) → ∀ (F : EdgeId → Prop) (c : Cutting D),
      Trimmed host (fun _ => False) F c.wiring → (∀ e, CutsEdge batch e → ¬ F e) →
      (applyAll host batch c).state = batch.foldl (tell host) c.state := by
  intro batch
  induction batch with
  | nil => exact fun _ _ _ _ _ _ => rfl
  | cons r rest ih =>
    intro separate steady F c trimmed uncut
    have hr : r ∈ r :: rest := List.mem_cons_self
    have valid := separate.valid r hr
    have steadyHere : ∀ v, ¬ CutsVertex [r] v := fun v cut =>
      steady v (cutsVertex_iff_exists.mpr ⟨r, hr, cut⟩)
    have steadyRest : ∀ v, ¬ CutsVertex rest v := by
      intro v cut
      obtain ⟨s, hs, cut⟩ := cutsVertex_iff_exists.mp cut
      exact steady v (cutsVertex_iff_exists.mpr ⟨s, List.mem_cons_of_mem r hs, cut⟩)
    have told : (apply host c r).state = tell host c.state r :=
      state_apply valid (separate.distinct r hr).2 steadyHere trimmed
        fun e cut => uncut e (cutsEdge_iff_exists.mpr ⟨r, hr, cut⟩)
    have step : Trimmed host (fun _ => False) (fun e => F e ∨ CutsEdge [r] e)
        (apply host c r).wiring :=
      (trimmed_apply consistent valid trimmed).congr (by simpa using steadyHere) fun _ => Iff.rfl
    rw [List.foldl_cons, ← told]
    refine ih (separate.of_sublist (List.sublist_cons_self r rest)) steadyRest _ _ step ?_
    rintro e cut (before | here)
    · obtain ⟨s, hs, cut⟩ := cutsEdge_iff_exists.mp cut
      exact uncut e (cutsEdge_iff_exists.mpr ⟨s, List.mem_cons_of_mem r hs, cut⟩) before
    · -- What one application cuts the others leave alone.
      obtain ⟨s, hs, cut⟩ := cutsEdge_iff_exists.mp cut
      obtain ⟨x, hx, -, rfl⟩ := cutsEdge_singleton_iff.mp cut
      have spares := ((List.pairwise_cons.mp separate.spares).1 s hs).1
      exact (spares.edges _ (List.of_mem_zip hx).2).1 here

end Cutting

theorem Separate.state_after_cuts (separate : Separate host batch)
    (steady : ∀ v, ¬ CutsVertex batch v) (consistent : host.Consistent) (s : D.BuildState) :
    (Cutting.applyAll host batch ⟨.ofGraph host, s⟩).state = batch.foldl (Cutting.tell host) s :=
  Cutting.state_applyAll consistent batch separate steady _ _ (trimmed_ofGraph consistent) nofun

end GraphSplice
