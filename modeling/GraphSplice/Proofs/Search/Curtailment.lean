import GraphSplice.Proofs.Search.Extension

/-!
Two searches that differ in when they stop. The one that stops and the one that does not go through
the same states until the first has stopped; from then on the second only moves further past it.
-/

namespace GraphSplice.Search

universe u

variable {α : Type} {σ : Type u} {I Within : σ → Prop} {Past : σ → σ → Prop} {guide : Guide σ}
  {visit visit' : Embedding → σ → Flow × σ} {T : Terms} {total : Prop} {p : Pattern}
  {target : Target}

/-- What a search that may stop has come to beside one that does not: both are in one state, from
which both go on, or the first has stopped at a state that the second is past. -/
inductive Curtailed (Within : σ → Prop) (Past : σ → σ → Prop) : Flow × σ → Flow × σ → Prop
  | together {s : σ} : Within s → Curtailed Within Past (.more, s) (.more, s)
  | stopped {s t : σ} : Past s t → Curtailed Within Past (.done, s) (.more, t)

/-! ## A search that does not stop -/

theorem visitUntil_goesOn {visit : α → σ → Flow × σ} {xs : List α}
    (h : ∀ x ∈ xs, Ensures I (visit x) (· = .more)) :
    Ensures I (visitUntil visit xs) (· = .more) := by
  induction xs with
  | nil => exact fun s hs => ⟨rfl, hs⟩
  | cons x rest ih =>
    intro s hs
    obtain ⟨flow, kept⟩ := h x List.mem_cons_self s hs
    unfold visitUntil
    cases visited : visit x s with
    | mk answer s' =>
      rw [visited] at flow kept
      cases flow
      exact ih (fun y hy => h y (List.mem_cons_of_mem x hy)) s' kept

/-- The bundles need not be those of a placement, nor their targets be in order. -/
theorem assignBundles_keeps (keeps : Keeps guide T total I) (around : List Bundle) :
    ∀ s, I s → I (assignBundles guide.edge around s).2 := by
  induction around with
  | nil => exact fun s hs => hs
  | cons b rest ih =>
    intro s hs
    have kept := b.assign_keeps (fun e t s hs => (keeps.edge e t s hs).2) s hs
    unfold assignBundles
    cases first : b.assign guide.edge s with
    | mk result s' =>
      rw [first] at kept
      cases result with
      | none => exact kept
      | some chosen =>
        have kept' := ih s' kept
        dsimp only
        cases later : assignBundles guide.edge rest s' with
        | mk result s'' =>
          rw [later] at kept'
          cases result <;> exact kept'

theorem fit_keeps (keeps : Keeps guide T total I) (p : Pattern) (target : Target) (m : Placement)
    (v t : Nat) : ∀ s, I s → I (fit guide p target m v t s).2 := by
  intro s hs
  unfold fit
  dsimp only
  split
  · exact hs
  · have kept := (keeps.vertex v t s hs).2
    cases asked : guide.vertex v t s with
    | mk ok s' =>
      rw [asked] at kept
      cases ok with
      | false => exact kept
      | true => exact assignBundles_keeps keeps _ s' kept

/-- A candidate is passed over, or the vertex is placed on it, with `I` in either case. -/
theorem extendAt_passes_or_places (keeps : Keeps guide T total I) (p : Pattern) (target : Target)
    (rest : List Visit) (m : Placement) (v t : Nat) {s : σ} (hs : I s) :
    ∃ s', I s' ∧ ((∀ visit, extendAt { guide with visit } p target rest m v t s = (.more, s')) ∨
      ∃ edges, ∀ visit, extendAt { guide with visit } p target rest m v t s =
        extend { guide with visit } p target rest (m.place v t edges) s') := by
  by_cases isOpen : Open p target m v t
  · have kept := fit_keeps keeps p target m v t s hs
    cases fitted : fit guide p target m v t s with
    | mk result s' =>
      rw [fitted] at kept
      have fitted' : ∀ visit, fit { guide with visit } p target m v t s = (result, s') :=
        fun _ => fitted
      refine ⟨s', kept, ?_⟩
      cases result with
      | none => exact .inl fun visit => by rw [extendAt, if_pos isOpen, fitted']
      | some edges => exact .inr ⟨edges, fun visit => by rw [extendAt, if_pos isOpen, fitted']⟩
  · exact ⟨s, hs, .inl fun visit => by rw [extendAt, if_neg isOpen]⟩

theorem extend_goesOn (keeps : Keeps guide T total I) (visits : ∀ e, Ensures I (visit e) (· = .more))
    (rest : List Visit) :
    ∀ m : Placement, Ensures I (extend { guide with visit } p target rest m) (· = .more) := by
  induction rest with
  | nil => exact fun m => visits m.toEmbedding
  | cons x rest ih =>
    intro m
    rw [extend_cons]
    apply visitUntil_goesOn
    intro t _ s hs
    obtain ⟨s', kept, passed | ⟨edges, placed⟩⟩ :=
      extendAt_passes_or_places keeps p target rest m x.vertex t hs
    · rw [passed visit]
      exact ⟨rfl, kept⟩
    · rw [placed visit]
      exact ih _ s' kept

/-! ## Beside it the search that stops -/

theorem visitUntil_curtailed {visit visit' : α → σ → Flow × σ} {xs : List α}
    (each : ∀ x ∈ xs, ∀ s, Within s → Curtailed Within Past (visit x s) (visit' x s))
    (past : ∀ x ∈ xs, ∀ s, Ensures (Past s) (visit' x) (· = .more)) :
    ∀ s, Within s → Curtailed Within Past (visitUntil visit xs s) (visitUntil visit' xs s) := by
  induction xs with
  | nil => exact fun s hs => .together hs
  | cons x rest ih =>
    intro s hs
    have first := each x List.mem_cons_self s hs
    have behind := fun y hy => past y (List.mem_cons_of_mem x hy)
    unfold visitUntil
    cases visited : visit x s with
    | mk flow a =>
      cases visited' : visit' x s with
      | mk flow' b =>
        rw [visited, visited'] at first
        cases first with
        | together within =>
          exact ih (fun y hy => each y (List.mem_cons_of_mem x hy)) behind a within
        | stopped further =>
          -- What is left of the items is visited by the second search alone.
          obtain ⟨flow, further'⟩ := visitUntil_goesOn (fun y hy => behind y hy a) b further
          dsimp only
          rw [← Prod.mk.eta (p := visitUntil visit' rest b), flow]
          exact .stopped further'

/-- Two guides that answer alike and differ in whether they stop. -/
theorem extend_curtailed (keeps : Keeps guide T total Within)
    (keepsPast : ∀ s, Keeps guide T total (Past s))
    (visits : ∀ e s, Within s → Curtailed Within Past (visit e s) (visit' e s))
    (past : ∀ e s, Ensures (Past s) (visit' e) (· = .more)) (rest : List Visit) :
    ∀ (m : Placement) (s : σ), Within s → Curtailed Within Past
      (extend { guide with visit } p target rest m s)
      (extend { guide with visit := visit' } p target rest m s) := by
  induction rest with
  | nil => exact fun m s hs => visits m.toEmbedding s hs
  | cons x rest ih =>
    intro m
    rw [extend_cons, extend_cons]
    apply visitUntil_curtailed
    · intro t _ s hs
      obtain ⟨s', within, passed | ⟨edges, placed⟩⟩ :=
        extendAt_passes_or_places keeps p target rest m x.vertex t hs
      · rw [passed visit, passed visit']
        exact .together within
      · rw [placed visit, placed visit']
        exact ih _ s' within
    · intro t _ s b further
      obtain ⟨b', further', passed | ⟨edges, placed⟩⟩ :=
        extendAt_passes_or_places (keepsPast s) p target rest m x.vertex t further
      · rw [passed visit']
        exact ⟨rfl, further'⟩
      · rw [placed visit']
        exact extend_goesOn (keepsPast s) (fun e => past e s) rest _ b' further'

theorem run_curtailed (keeps : Keeps guide T total Within)
    (keepsPast : ∀ s, Keeps guide T total (Past s))
    (visits : ∀ e s, Within s → Curtailed Within Past (visit e s) (visit' e s))
    (past : ∀ e s, Ensures (Past s) (visit' e) (· = .more)) (p : Pattern) (target : Target) (s : σ)
    (hs : Within s) : Curtailed Within Past (run { guide with visit } p target s)
      (run { guide with visit := visit' } p target s) :=
  extend_curtailed keeps keepsPast visits past (visitOrder p) .empty s hs

end GraphSplice.Search
