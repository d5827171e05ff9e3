import GraphSplice.Proofs.Search.Extension

/-!
Searches that stop. Where the guide stops at exactly the embeddings with some property, whatever
its state, the search stops if and only if there is such an embedding.
-/

namespace GraphSplice.Search

universe u

variable {σ : Type u} {I : σ → Prop} {guide : Guide σ} {T : Terms} {p : Pattern} {target : Target}
  {H : Embedding → Prop}

theorem ensures_visitUntil {α : Type} {visit : α → σ → Flow × σ} {R : α → Prop} {xs : List α}
    (h : ∀ x ∈ xs, Ensures I (visit x) (· = .done ↔ R x)) :
    Ensures I (visitUntil visit xs) (· = .done ↔ ∃ x ∈ xs, R x) := by
  induction xs with
  | nil => exact fun s hs => ⟨by simp [visitUntil], hs⟩
  | cons x rest ih =>
    intro s hs
    obtain ⟨answer, kept⟩ := h x List.mem_cons_self s hs
    unfold visitUntil
    cases visited : visit x s with
    | mk flow s' =>
      rw [visited] at answer kept
      cases flow with
      | done => exact ⟨⟨fun _ => ⟨x, List.mem_cons_self, answer.mp rfl⟩, fun _ => rfl⟩, kept⟩
      | more =>
        have passed : ¬ R x := by
          intro found
          cases answer.mpr found
        obtain ⟨answers, kept'⟩ := ih (fun y hy => h y (List.mem_cons_of_mem x hy)) s' kept
        refine ⟨answers.trans ?_, kept'⟩
        simp [passed]

/-- The search from a placement stops exactly when some embedding with the property agrees with
the placement. -/
theorem ensures_extend (isExact : T.exact) (plain : p.Plain) (regular : target.Regular)
    (keeps : Keeps guide T T.exact I)
    (visits : ∀ e, Embeds T p target e → Ensures I (guide.visit e) (· = .done ↔ H e))
    {placed : List Nat} {rest : List Visit} (schedule : Schedule p placed rest) :
    ∀ {m : Placement}, Fitting T p target m → Covers m placed →
      Ensures I (extend guide p target rest m)
        (· = .done ↔ ∃ e, Embeds T p target e ∧ Agrees m e ∧ H e) := by
  induction schedule with
  | done all =>
    intro m fitting covers s hs
    have every : ∀ i < p.order, ∃ t, (i, t) ∈ m.vertices := fun i hi => (covers i).mp (all i hi)
    have embeds := fitting.embeds plain every
    obtain ⟨answer, kept⟩ := visits _ embeds s hs
    refine ⟨answer.trans ⟨fun found => ⟨_, embeds, fitting.agrees_toEmbedding every, found⟩, ?_⟩,
      kept⟩
    rintro ⟨e, h, agrees, found⟩
    exact h.eq_toEmbedding isExact plain fitting every agrees ▸ found
  | @next placed x rest inside fresh anchored _ ih =>
    intro m fitting covers
    rw [extend_cons]
    have unplaced := covers.fresh fresh
    have each : Ensures I (visitUntil (extendAt guide p target rest m x.vertex)
        (candidates target m x)) (· = .done ↔ ∃ t ∈ candidates target m x,
          ∃ e, (Embeds T p target e ∧ Agrees m e ∧ H e) ∧ e.vertices[x.vertex]? = some t) := by
      refine ensures_visitUntil fun t candidate s hs => ?_
      obtain ⟨s', kept, passed, unfit⟩ | ⟨edges, s', kept, isOpen, fits, placed⟩ :=
        extendAt_cases fitting regular keeps rest x.vertex t hs
      · rw [passed]
        refine ⟨⟨nofun, ?_⟩, kept⟩
        rintro ⟨e, ⟨h, agrees, -⟩, found⟩
        exact absurd (h.admissible agrees unplaced found)
          (unfit isExact isExact (h.isOpen plain regular agrees unplaced found))
      · rw [placed]
        obtain ⟨answer, kept'⟩ := ih (fitting.place_candidate regular covers inside fresh
          candidate isOpen fits) (covers.place _ _ _) s' kept
        refine ⟨answer.trans (exists_congr fun e => ?_), kept'⟩
        rw [agrees_place_iff]
        tauto
    intro s hs
    obtain ⟨answer, kept⟩ := each s hs
    refine ⟨answer.trans ⟨?_, ?_⟩, kept⟩
    · rintro ⟨t, -, e, found, -⟩
      exact ⟨e, found⟩
    · rintro ⟨e, h, agrees, found⟩
      obtain ⟨t, sent⟩ : ∃ t, e.vertices[x.vertex]? = some t :=
        ⟨_, List.getElem?_eq_getElem (h.arity ▸ inside)⟩
      exact ⟨t, h.mem_candidates regular fitting agrees (fun u hu => (anchored u hu).2) unplaced
        sent, e, ⟨h, agrees, found⟩, sent⟩

theorem ensures_run (isExact : T.exact) (plain : p.Plain) (regular : target.Regular)
    (keeps : Keeps guide T T.exact I)
    (visits : ∀ e, Embeds T p target e → Ensures I (guide.visit e) (· = .done ↔ H e)) :
    Ensures I (run guide p target) (· = .done ↔ ∃ e, Embeds T p target e ∧ H e) := by
  intro s hs
  obtain ⟨answer, kept⟩ := ensures_extend isExact plain regular keeps visits
    (schedule_visitOrder p) .empty covers_empty s hs
  refine ⟨answer.trans (exists_congr fun e => ?_), kept⟩
  exact ⟨fun h => ⟨h.1, h.2.2⟩, fun h => ⟨h.1, nofun, h.2⟩⟩

end GraphSplice.Search
