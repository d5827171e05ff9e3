import GraphSplice.Proofs.Search.Allotment
import GraphSplice.Proofs.Search.Order
import GraphSplice.Proofs.Search.Placement

/-!
The search itself. Whatever its guide answers, the search visits embeddings only. With an exact
guide it visits all of them, each once: neither the anchors nor the comparison of neighbourhoods
nor the induced placements before cost it any.
-/

namespace GraphSplice.Search

universe u

variable {σ : Type u} {I : σ → Prop} {guide : Guide σ} {T : Terms} {total : Prop} {p : Pattern}
  {target : Target} {m : Placement}

/-- The guide keeps to the terms, and its answers leave states with `I`. About edges it is exact
where the terms say so; if `total`, it turns down no vertex that would do. -/
structure Keeps (guide : Guide σ) (T : Terms) (total : Prop) (I : σ → Prop) : Prop where
  vertex : ∀ v t, Ensures I (guide.vertex v t) (Tells total (T.vertex v t))
  edge : ∀ e t, Ensures I (guide.edge e t) (Tells T.exact (T.edge e t))

/-! ## Bundles -/

/-- The entries assign the edges of all the bundles. -/
inductive Filled (T : Terms) : List Bundle → Table → Prop
  | nil : Filled T [] []
  | cons {b : Bundle} {rest : List Bundle} {chosen : List Nat} {more : Table} :
      T.Assigned b.target b.pattern chosen → Filled T rest more →
      Filled T (b :: rest) (b.pattern.zip chosen ++ more)

namespace Filled

variable {bundles : List Bundle} {edges : Table}

theorem assigned (h : Filled T bundles edges) : ∀ b ∈ bundles, ∃ chosen,
    T.Assigned b.target b.pattern chosen ∧ ∀ x ∈ b.pattern.zip chosen, x ∈ edges := by
  induction h with
  | nil => exact nofun
  | cons first _ ih =>
    intro b hb
    rcases List.mem_cons.mp hb with rfl | later
    · exact ⟨_, first, fun x hx => List.mem_append_left _ hx⟩
    · obtain ⟨chosen, assigned, there⟩ := ih b later
      exact ⟨chosen, assigned, fun x hx => List.mem_append_right _ (there x hx)⟩

theorem keys (h : Filled T bundles edges) : edges.map (·.1) = bundles.flatMap (·.pattern) := by
  induction h with
  | nil => rfl
  | cons first _ ih =>
    rw [List.map_append, ih, List.flatMap_cons]
    congr 1
    exact List.map_fst_zip (le_of_eq first.1.length_eq.symm)

end Filled

theorem ensures_assignBundles {bundles : List Bundle}
    (ordered : ∀ b ∈ bundles, b.target.Pairwise (· < ·)) (keeps : Keeps guide T total I) :
    Ensures I (assignBundles guide.edge bundles) fun result =>
      (∀ edges, result = some edges → Filled T bundles edges) ∧
      (result = none → T.exact →
        ∃ b ∈ bundles, ∀ chosen, ¬ Assigns T.edge b.target [] b.pattern chosen) := by
  induction bundles with
  | nil =>
    intro s hs
    refine ⟨⟨?_, nofun⟩, hs⟩
    intro edges same
    cases same
    exact .nil
  | cons b rest ih =>
    intro s hs
    obtain ⟨⟨found, missing⟩, kept⟩ :=
      ensures_assignEdges (ordered b List.mem_cons_self) [] b.pattern keeps.edge s hs
    unfold assignBundles
    rw [Bundle.assign_eq (ordered b List.mem_cons_self).nodup]
    cases first : assignEdges guide.edge b.target b.pattern [] s with
    | mk result s' =>
      rw [first] at found missing kept
      cases result with
      | none =>
        refine ⟨⟨nofun, ?_⟩, kept⟩
        exact fun _ isExact => ⟨b, List.mem_cons_self, missing rfl isExact⟩
      | some chosen =>
        obtain ⟨⟨found', missing'⟩, kept'⟩ :=
          ih (fun b hb => ordered b (List.mem_cons_of_mem _ hb)) s' kept
        dsimp only
        cases later : assignBundles guide.edge rest s' with
        | mk result s'' =>
          rw [later] at found' missing' kept'
          cases result with
          | none =>
            refine ⟨⟨nofun, ?_⟩, kept'⟩
            intro _ isExact
            obtain ⟨b', hb', none⟩ := missing' rfl isExact
            exact ⟨b', List.mem_cons_of_mem b hb', none⟩
          | some more =>
            refine ⟨⟨?_, nofun⟩, kept'⟩
            intro edges same
            cases same
            exact .cons (found chosen rfl) (found' more rfl)

/-! ## Placing one vertex -/

/-- Nothing speaks against placing the vertex on the target. -/
structure Admissible (T : Terms) (p : Pattern) (target : Target) (m : Placement) (v t : Nat) :
    Prop where
  vertex : T.vertex v t
  induced : ∀ j b, (j, b) ∈ m.vertices → p.edgesBetween v j = [] → target.edgesBetween t b = []
  assigned : ∀ j b, (j, b) ∈ m.vertices →
    ∃ chosen, Assigns T.edge (target.edgesBetween t b) [] (p.edgesBetween v j) chosen

theorem mem_bundles_iff {v t : Nat} {b : Bundle} : b ∈ bundles p target m v t ↔
    ∃ j c, (j, c) ∈ m.vertices ∧ b = ⟨p.edgesBetween v j, target.edgesBetween t c⟩ := by
  unfold bundles
  simp only [List.mem_map, Prod.exists, eq_comm]

/-- The edges to different placed vertices are different. -/
theorem Fitting.nodup_patterns (fitting : Fitting T p target m) (v t : Nat) :
    ((bundles p target m v t).flatMap (·.pattern)).Nodup := by
  unfold bundles
  rw [List.flatMap_map, List.nodup_flatMap]
  constructor
  · exact fun q _ => p.nodup_edgesBetween v q.1
  · have ordered : m.vertices.Pairwise fun q q' => q.1 < q'.1 :=
      List.pairwise_map.mp fitting.sorted
    apply ordered.imp
    intro q q' less k hk hk'
    rcases Pattern.eq_of_mem_edgesBetween hk hk' with ⟨-, same⟩ | ⟨same, same'⟩ <;> omega

theorem Assigns.length_le {E : Nat → Nat → Prop} {targets edges chosen : List Nat}
    (h : Assigns E targets [] edges chosen) : edges.length ≤ targets.length := by
  rw [← h.length_eq]
  apply (List.subperm_of_subset h.nodup ?_).length_le
  intro t ht
  obtain ⟨i, found⟩ := List.getElem?_of_mem ht
  obtain ⟨less, same⟩ := List.getElem?_eq_some_iff.mp found
  have there := (List.forall₂_iff_get.mp h.each).2 i (h.length_eq ▸ less) less
  exact same ▸ there.1

theorem ensures_fit (fitting : Fitting T p target m) (regular : target.Regular)
    (keeps : Keeps guide T total I) (v t : Nat) :
    Ensures I (fit guide p target m v t) fun result =>
      (∀ edges, result = some edges → Fits T p target m v t edges) ∧
      (result = none → total → T.exact → ¬ Admissible T p target m v t) := by
  intro s hs
  unfold fit
  dsimp only
  split
  · next misfit =>
    refine ⟨⟨nofun, ?_⟩, hs⟩
    intro _ _ _ admissible
    obtain ⟨b, hb, unfit⟩ := misfit
    obtain ⟨j, c, placed, rfl⟩ := mem_bundles_iff.mp hb
    obtain ⟨chosen, assigns⟩ := admissible.assigned j c placed
    exact unfit ⟨assigns.length_le, admissible.induced j c placed⟩
  · next fits =>
    obtain ⟨⟨sound, complete⟩, kept⟩ := keeps.vertex v t s hs
    cases asked : guide.vertex v t s with
    | mk ok s' =>
      rw [asked] at sound complete kept
      cases ok with
      | false =>
        refine ⟨⟨nofun, ?_⟩, kept⟩
        intro _ isTotal _ admissible
        exact Bool.false_ne_true (complete isTotal admissible.vertex)
      | true =>
        have ordered : ∀ b ∈ bundles p target m v t, b.target.Pairwise (· < ·) := by
          intro b hb
          obtain ⟨j, c, -, rfl⟩ := mem_bundles_iff.mp hb
          exact regular.ascending t c
        obtain ⟨⟨found, missing⟩, kept'⟩ := ensures_assignBundles ordered keeps s' kept
        refine ⟨⟨?_, ?_⟩, kept'⟩
        · intro edges same
          have filled := found edges same
          constructor
          case vertex => exact sound rfl
          case induced =>
            intro j b placed none
            by_contra joined
            exact fits ⟨_, mem_bundles_iff.mpr ⟨j, b, placed, rfl⟩, fun fit => joined (fit.2 none)⟩
          case distinct =>
            rw [filled.keys]
            exact fitting.nodup_patterns v t
          case between =>
            intro x hx
            have key : x.1 ∈ edges.map (·.1) := List.mem_map.mpr ⟨x, hx, rfl⟩
            rw [filled.keys, List.mem_flatMap] at key
            obtain ⟨b, hb, inside⟩ := key
            obtain ⟨j, c, placed, rfl⟩ := mem_bundles_iff.mp hb
            exact ⟨j, c, placed, inside⟩
          case assigned =>
            exact fun j b placed =>
              filled.assigned _ (mem_bundles_iff.mpr ⟨j, b, placed, rfl⟩)
        · intro same _ isExact admissible
          obtain ⟨b, hb, none⟩ := missing same isExact
          obtain ⟨j, c, placed, rfl⟩ := mem_bundles_iff.mp hb
          obtain ⟨chosen, assigns⟩ := admissible.assigned j c placed
          exact none chosen assigns

/-- The placement has placed these vertices. -/
def Covers (m : Placement) (placed : List Nat) : Prop := ∀ v, v ∈ placed ↔ ∃ t, (v, t) ∈ m.vertices

theorem covers_empty : Covers .empty [] := by
  intro v
  simp [Placement.empty]

theorem Covers.fresh {placed : List Nat} (covers : Covers m placed) {v : Nat} (hv : v ∉ placed)
    (t : Nat) : (v, t) ∉ m.vertices := fun inside => hv ((covers v).mpr ⟨t, inside⟩)

theorem Covers.place {placed : List Nat} (covers : Covers m placed) (v t : Nat) (edges : Table) :
    Covers (m.place v t edges) (v :: placed) := by
  intro u
  simp only [List.mem_cons, covers u, Fitting.mem_place_vertices, Prod.mk.injEq]
  constructor
  · rintro (rfl | ⟨a, inside⟩)
    · exact ⟨t, .inl ⟨rfl, rfl⟩⟩
    · exact ⟨a, .inr inside⟩
  · rintro ⟨a, ⟨rfl, -⟩ | inside⟩
    · exact .inl rfl
    · exact .inr ⟨a, inside⟩

theorem lt_of_mem_candidates (regular : target.Regular) {x : Visit} {t : Nat}
    (h : t ∈ candidates target m x) : t < target.order := by
  unfold candidates at h
  split at h
  · exact regular.lt_of_mem_distinctNeighbors h
  · exact List.mem_range.mp h

theorem nodup_candidates (x : Visit) : (candidates target m x).Nodup := by
  unfold candidates
  split
  · exact target.nodup_distinctNeighbors _
  · exact List.nodup_range

theorem not_uses_iff {t : Nat} : m.uses t = false ↔ ∀ i, (i, t) ∉ m.vertices := by
  unfold Placement.uses Table.values
  simp

/-- A candidate on which the vertex fits is a place for it. -/
theorem Fitting.place_candidate (fitting : Fitting T p target m) (regular : target.Regular)
    {placed : List Nat} (covers : Covers m placed) {x : Visit} (inside : x.vertex < p.order)
    (fresh : x.vertex ∉ placed) {t : Nat} (candidate : t ∈ candidates target m x)
    (isOpen : Open p target m x.vertex t) {edges : Table}
    (fits : Fits T p target m x.vertex t edges) :
    Fitting T p target (m.place x.vertex t edges) :=
  fitting.place regular fits (covers.fresh fresh) (not_uses_iff.mp isOpen.1) inside
    (lt_of_mem_candidates regular candidate)

/-! ## Soundness -/

theorem visitUntil_keeps {α : Type} {visit : α → σ → Flow × σ} {xs : List α}
    (h : ∀ x ∈ xs, ∀ s, I s → I (visit x s).2) : ∀ s, I s → I (visitUntil visit xs s).2 := by
  induction xs with
  | nil => exact fun s hs => hs
  | cons x rest ih =>
    intro s hs
    have kept := h x List.mem_cons_self s hs
    unfold visitUntil
    cases visited : visit x s with
    | mk flow s' =>
      rw [visited] at kept
      cases flow with
      | done => exact kept
      | more => exact ih (fun y hy => h y (List.mem_cons_of_mem x hy)) s' kept

/-- The search below one candidate `t` for `v`: `v` is placed on it, where it fits, and the other
visits follow. -/
def extendAt (guide : Guide σ) (p : Pattern) (target : Target) (rest : List Visit) (m : Placement)
    (v t : Nat) (s : σ) : Flow × σ :=
  if Open p target m v t then
    match fit guide p target m v t s with
    | (none, s) => (.more, s)
    | (some edges, s) => extend guide p target rest (m.place v t edges) s
  else (.more, s)

theorem extend_cons (x : Visit) (rest : List Visit) : extend guide p target (x :: rest) m =
    visitUntil (extendAt guide p target rest m x.vertex) (candidates target m x) := rfl

/-- A candidate is passed over, with an exact guide for a reason, or the vertex is placed on it. -/
theorem extendAt_cases (fitting : Fitting T p target m) (regular : target.Regular)
    (keeps : Keeps guide T total I) (rest : List Visit) (v t : Nat) {s : σ} (hs : I s) :
    (∃ s', I s' ∧ extendAt guide p target rest m v t s = (.more, s') ∧
      (total → T.exact → Open p target m v t → ¬ Admissible T p target m v t)) ∨
    ∃ edges s', I s' ∧ Open p target m v t ∧ Fits T p target m v t edges ∧
      extendAt guide p target rest m v t s =
        extend guide p target rest (m.place v t edges) s' := by
  unfold extendAt
  by_cases isOpen : Open p target m v t
  · rw [if_pos isOpen]
    obtain ⟨⟨found, missing⟩, kept⟩ := ensures_fit fitting regular keeps v t s hs
    cases fitted : fit guide p target m v t s with
    | mk result s' =>
      rw [fitted] at found missing kept
      cases result with
      | none => exact .inl ⟨s', kept, rfl, fun isTotal isExact _ => missing rfl isTotal isExact⟩
      | some edges => exact .inr ⟨edges, s', kept, isOpen, found edges rfl, rfl⟩
  · rw [if_neg isOpen]
    exact .inl ⟨s, hs, rfl, fun _ _ h => absurd h isOpen⟩

/-- What embeddings preserve when they are visited, the search preserves. -/
theorem extend_keeps (plain : p.Plain) (regular : target.Regular) (keeps : Keeps guide T total I)
    (visits : ∀ e s, Embeds T p target e → I s → I (guide.visit e s).2) {placed : List Nat}
    {rest : List Visit} (schedule : Schedule p placed rest) :
    ∀ {m : Placement}, Fitting T p target m → Covers m placed →
      ∀ s, I s → I (extend guide p target rest m s).2 := by
  induction schedule with
  | done all =>
    intro m fitting covers s hs
    exact visits _ s (fitting.embeds plain fun i hi => (covers i).mp (all i hi)) hs
  | @next placed x rest inside fresh _ _ ih =>
    intro m fitting covers
    rw [extend_cons]
    apply visitUntil_keeps
    intro t candidate s hs
    obtain ⟨s', kept, passed, -⟩ | ⟨edges, s', kept, isOpen, fits, placed⟩ :=
      extendAt_cases fitting regular keeps rest x.vertex t hs
    · rw [passed]
      exact kept
    · rw [placed]
      exact ih (fitting.place_candidate regular covers inside fresh candidate isOpen fits)
        (covers.place _ _ _) s' kept

/-- The search visits embeddings only. -/
theorem run_keeps (plain : p.Plain) (regular : target.Regular) (keeps : Keeps guide T total I)
    (visits : ∀ e s, Embeds T p target e → I s → I (guide.visit e s).2) (s : σ) (hs : I s) :
    I (run guide p target s).2 :=
  extend_keeps plain regular keeps visits (schedule_visitOrder p) .empty
    covers_empty s hs

/-! ## Completeness -/

namespace Embeds

variable {e : Embedding} {v t : Nat}

theorem admissible (h : Embeds T p target e) (agrees : Agrees m e)
    (fresh : ∀ a, (v, a) ∉ m.vertices) (found : e.vertices[v]? = some t) :
    Admissible T p target m v t := by
  have different : ∀ j b, (j, b) ∈ m.vertices → v ≠ j := by
    rintro j b placed rfl
    exact fresh b placed
  constructor
  · exact h.vertex v t found
  · exact fun j b placed =>
      h.induced v j t b found (agrees j b placed) (different j b placed)
  · intro j b placed
    obtain ⟨chosen, assigned, -⟩ :=
      h.assigned v j t b found (agrees j b placed) (different j b placed)
    exact ⟨chosen, assigned.1⟩

/-- Joined vertices are sent to joined vertices. -/
theorem joined (h : Embeds T p target e) {i j a b : Nat} (hi : e.vertices[i]? = some a)
    (hj : e.vertices[j]? = some b) (different : i ≠ j) (joined : p.edgesBetween i j ≠ []) :
    target.edgesBetween a b ≠ [] := by
  obtain ⟨chosen, assigned, -⟩ := h.assigned i j a b hi hj different
  have few := assigned.1.length_le
  intro none
  rw [none, List.length_nil, Nat.le_zero, List.length_eq_zero_iff] at few
  exact joined few

/-- The image of an anchor has the image of the vertex next to it. -/
theorem mem_candidates (h : Embeds T p target e) (regular : target.Regular)
    (fitting : Fitting T p target m) (agrees : Agrees m e) {x : Visit}
    (anchored : ∀ u, x.anchor = some u → p.edgesBetween u x.vertex ≠ [])
    (fresh : ∀ a, (x.vertex, a) ∉ m.vertices) (found : e.vertices[x.vertex]? = some t) :
    t ∈ candidates target m x := by
  unfold candidates
  split
  · next seed anchor =>
    obtain ⟨u, isAnchor, image⟩ := Option.bind_eq_some_iff.mp anchor
    have placed := fitting.image?_eq_some_iff.mp image
    have there := agrees u seed placed
    have different : u ≠ x.vertex := by
      rintro rfl
      exact fresh seed placed
    rw [regular.mem_distinctNeighbors_iff]
    refine ⟨?_, h.joined there found different (anchored u isAnchor)⟩
    rintro rfl
    exact different (h.injective there found)
  · exact List.mem_range.mpr (h.inside t (List.mem_of_getElem? found))

/-- A vertex has no more neighbours than its image. -/
theorem length_distinctNeighbors_le (h : Embeds T p target e) (plain : p.Plain)
    (regular : target.Regular) (found : e.vertices[v]? = some t) :
    (p.distinctNeighbors v).length ≤ (target.distinctNeighbors t).length := by
  have image : ∀ u ∈ p.distinctNeighbors v, ∃ a, e.vertices[u]? = some a := by
    intro u hu
    have inside : u < e.vertices.length := by
      rw [h.arity]
      exact plain.regular.lt_of_mem_distinctNeighbors hu
    exact ⟨_, List.getElem?_eq_getElem inside⟩
  have nodup : ((p.distinctNeighbors v).map (e.vertices[·]?)).Nodup := by
    apply List.Nodup.map_on _ (p.asTarget.nodup_distinctNeighbors v)
    intro u hu w hw same
    obtain ⟨a, ha⟩ := image u hu
    exact h.injective ha (same ▸ ha)
  have subset : (p.distinctNeighbors v).map (e.vertices[·]?) ⊆
      (target.distinctNeighbors t).map some := by
    intro x hx
    obtain ⟨u, hu, rfl⟩ := List.mem_map.mp hx
    obtain ⟨a, ha⟩ := image u hu
    obtain ⟨different, joined⟩ := plain.regular.mem_distinctNeighbors_iff.mp hu
    rw [ha]
    refine List.mem_map.mpr ⟨a, regular.mem_distinctNeighbors_iff.mpr ⟨?_, ?_⟩, rfl⟩
    · rintro rfl
      exact different (h.injective ha found)
    · exact h.joined found ha (Ne.symm different) joined
  have count := (List.subperm_of_subset nodup subset).length_le
  rwa [List.length_map, List.length_map] at count

theorem isOpen (h : Embeds T p target e) (plain : p.Plain) (regular : target.Regular)
    (agrees : Agrees m e) (fresh : ∀ a, (v, a) ∉ m.vertices) (found : e.vertices[v]? = some t) :
    Open p target m v t := by
  refine ⟨not_uses_iff.mpr ?_, h.length_distinctNeighbors_le plain regular found⟩
  intro i placed
  obtain rfl := h.injective (agrees i t placed) found
  exact fresh t placed

/-- A placement of all vertices leaves one embedding. -/
theorem eq_toEmbedding (h : Embeds T p target e) (isExact : T.exact) (plain : p.Plain)
    (fitting : Fitting T p target m) (every : ∀ i < p.order, ∃ t, (i, t) ∈ m.vertices)
    (agrees : Agrees m e) : e = m.toEmbedding := by
  have embeds := fitting.embeds plain every
  apply h.eq_of_vertices isExact plain embeds
  apply List.ext_getElem?
  intro i
  by_cases inside : i < p.order
  · obtain ⟨t, placed⟩ := every i inside
    rw [agrees i t placed, fitting.agrees_toEmbedding every i t placed]
  · have beyond := Nat.le_of_not_lt inside
    rw [List.getElem?_eq_none (h.arity ▸ beyond), List.getElem?_eq_none (embeds.arity ▸ beyond)]

end Embeds

theorem agrees_place_iff {e : Embedding} {v t : Nat} {edges : Table} :
    Agrees (m.place v t edges) e ↔ Agrees m e ∧ e.vertices[v]? = some t := by
  constructor
  · exact fun agrees => ⟨fun i s placed => agrees i s (Fitting.mem_place_vertices.mpr (.inr placed)),
      agrees v t (Fitting.mem_place_vertices.mpr (.inl rfl))⟩
  · rintro ⟨agrees, found⟩ i s placed
    rcases Fitting.mem_place_vertices.mp placed with same | before
    · cases same
      exact found
    · exact agrees i s before

/-- All embeddings that agree with the placement, none twice. -/
structure Completes (T : Terms) (p : Pattern) (target : Target) (m : Placement)
    (es : List Embedding) : Prop where
  nodup : (es.map (·.vertices)).Nodup
  mem_iff : ∀ e, e ∈ es ↔ Embeds T p target e ∧ Agrees m e

/-- Of these the ones that send `v` to `t`. -/
structure CompletesAt (T : Terms) (p : Pattern) (target : Target) (m : Placement) (v t : Nat)
    (es : List Embedding) : Prop where
  nodup : (es.map (·.vertices)).Nodup
  mem_iff : ∀ e, e ∈ es ↔ (Embeds T p target e ∧ Agrees m e) ∧ e.vertices[v]? = some t

theorem Completes.at_place {v t : Nat} {edges : Table} {es : List Embedding}
    (h : Completes T p target (m.place v t edges) es) : CompletesAt T p target m v t es := by
  refine ⟨h.nodup, fun e => (h.mem_iff e).trans ?_⟩
  rw [and_assoc, agrees_place_iff]

theorem CompletesAt.nil {v t : Nat}
    (none : ∀ e, Embeds T p target e → Agrees m e → e.vertices[v]? ≠ some t) :
    CompletesAt T p target m v t [] :=
  ⟨List.nodup_nil, fun e => ⟨nofun, fun ⟨⟨h, agrees⟩, found⟩ => absurd found (none e h agrees)⟩⟩

/-- The embeddings for the candidates in turn are all embeddings. -/
theorem completes_flatten {v : Nat} {targets : List Nat} {parts : List (List Embedding)}
    (nodup : targets.Nodup)
    (all : ∀ e, Embeds T p target e → Agrees m e → ∃ t ∈ targets, e.vertices[v]? = some t)
    (each : List.Forall₂ (CompletesAt T p target m v) targets parts) :
    Completes T p target m parts.flatten := by
  have gathered : (parts.flatten.map (·.vertices)).Nodup ∧ ∀ e, e ∈ parts.flatten ↔
      (Embeds T p target e ∧ Agrees m e) ∧ ∃ t ∈ targets, e.vertices[v]? = some t := by
    clear all
    induction each with
    | nil => simp
    | @cons t es targets parts first _ ih =>
      obtain ⟨fresh, nodup⟩ := List.nodup_cons.mp nodup
      obtain ⟨apart, member⟩ := ih nodup
      constructor
      · rw [List.flatten_cons, List.map_append, List.nodup_append]
        refine ⟨first.nodup, apart, ?_⟩
        intro vs hvs ws hws same
        obtain ⟨e, he, rfl⟩ := List.mem_map.mp hvs
        obtain ⟨e', he', rfl⟩ := List.mem_map.mp hws
        obtain ⟨-, t', ht', found'⟩ := (member e').mp he'
        have found := ((first.mem_iff e).mp he).2
        rw [same, found'] at found
        cases found
        exact fresh ht'
      · intro e
        rw [List.flatten_cons, List.mem_append, first.mem_iff, member, ← and_or_left]
        simp only [List.mem_cons, exists_eq_or_imp]
  refine ⟨gathered.1, fun e => (gathered.2 e).trans ⟨And.left, fun h => ⟨h, ?_⟩⟩⟩
  exact all e h.1 h.2

variable {P : List Embedding → σ → Prop}

theorem visitUntil_sweeps {α : Type} (visit : α → σ → Flow × σ) (xs : List α)
    (R : α → List Embedding → Prop) (h : ∀ x ∈ xs, ∀ es s, P es s → ∃ more, R x more ∧
      (visit x s).1 = .more ∧ P (es ++ more) (visit x s).2) :
    ∀ es s, P es s → ∃ parts, List.Forall₂ R xs parts ∧ (visitUntil visit xs s).1 = .more ∧
      P (es ++ parts.flatten) (visitUntil visit xs s).2 := by
  induction xs with
  | nil => exact fun es s hs => ⟨[], .nil, rfl, by simpa [visitUntil] using hs⟩
  | cons x rest ih =>
    intro es s hs
    obtain ⟨more, related, flow, kept⟩ := h x List.mem_cons_self es s hs
    obtain ⟨parts, each, flow', kept'⟩ :=
      ih (fun y hy => h y (List.mem_cons_of_mem x hy)) _ _ kept
    refine ⟨more :: parts, .cons related each, ?_⟩
    unfold visitUntil
    cases visited : visit x s with
    | mk answer s' =>
      rw [visited] at flow flow' kept'
      cases flow
      refine ⟨flow', ?_⟩
      rw [List.flatten_cons, ← List.append_assoc]
      exact kept'

/-- With an exact guide that never stops, all embeddings that agree with the placement are visited,
each once. -/
theorem extend_sweeps (isExact : T.exact) (plain : p.Plain) (regular : target.Regular)
    (keeps : ∀ es, Keeps guide T T.exact (P es))
    (visits : ∀ es e s, Embeds T p target e → P es s →
      (guide.visit e s).1 = .more ∧ P (es ++ [e]) (guide.visit e s).2)
    {placed : List Nat} {rest : List Visit} (schedule : Schedule p placed rest) :
    ∀ {m : Placement}, Fitting T p target m → Covers m placed → ∀ es s, P es s →
      ∃ more, Completes T p target m more ∧ (extend guide p target rest m s).1 = .more ∧
        P (es ++ more) (extend guide p target rest m s).2 := by
  induction schedule with
  | done all =>
    intro m fitting covers es s hs
    have every : ∀ i < p.order, ∃ t, (i, t) ∈ m.vertices := fun i hi => (covers i).mp (all i hi)
    have embeds := fitting.embeds plain every
    obtain ⟨flow, kept⟩ := visits es _ s embeds hs
    refine ⟨[m.toEmbedding], ⟨List.nodup_singleton _, ?_⟩, flow, kept⟩
    intro e
    rw [List.mem_singleton]
    constructor
    · rintro rfl
      exact ⟨embeds, fitting.agrees_toEmbedding every⟩
    · exact fun ⟨h, agrees⟩ => h.eq_toEmbedding isExact plain fitting every agrees
  | @next placed x rest inside fresh anchored _ ih =>
    intro m fitting covers es s hs
    rw [extend_cons]
    have unplaced := covers.fresh fresh
    have each := visitUntil_sweeps (P := P) (extendAt guide p target rest m x.vertex)
      (candidates target m x) (CompletesAt T p target m x.vertex) ?_ es s hs
    · obtain ⟨parts, related, flow, kept⟩ := each
      refine ⟨parts.flatten, completes_flatten (nodup_candidates x) ?_ related, flow, kept⟩
      intro e h agrees
      obtain ⟨t, found⟩ : ∃ t, e.vertices[x.vertex]? = some t :=
        ⟨_, List.getElem?_eq_getElem (h.arity ▸ inside)⟩
      exact ⟨t, h.mem_candidates regular fitting agrees (fun u hu => (anchored u hu).2) unplaced
        found, found⟩
    · intro t candidate es s hs
      obtain ⟨s', kept, passed, unfit⟩ | ⟨edges, s', kept, isOpen, fits, placed⟩ :=
        extendAt_cases fitting regular (keeps es) rest x.vertex t hs
      · rw [passed]
        refine ⟨[], .nil ?_, rfl, by rwa [List.append_nil]⟩
        intro e h agrees found
        exact unfit isExact isExact (h.isOpen plain regular agrees unplaced found)
          (h.admissible agrees unplaced found)
      · rw [placed]
        obtain ⟨more, completes, flow, kept'⟩ := ih (fitting.place_candidate regular covers
          inside fresh candidate isOpen fits) (covers.place _ _ _) es s' kept
        exact ⟨more, completes.at_place, flow, kept'⟩

/-- With an exact guide that never stops, all embeddings are visited, each once. -/
theorem run_sweeps (isExact : T.exact) (plain : p.Plain) (regular : target.Regular)
    (keeps : ∀ es, Keeps guide T T.exact (P es))
    (visits : ∀ es e s, Embeds T p target e → P es s →
      (guide.visit e s).1 = .more ∧ P (es ++ [e]) (guide.visit e s).2) (s : σ) (hs : P [] s) :
    ∃ es, (es.map (·.vertices)).Nodup ∧ (∀ e, e ∈ es ↔ Embeds T p target e) ∧
      P es (run guide p target s).2 := by
  obtain ⟨es, completes, -, kept⟩ := extend_sweeps isExact plain regular keeps visits
    (schedule_visitOrder p) .empty covers_empty [] s hs
  refine ⟨es, completes.nodup, fun e => (completes.mem_iff e).trans ⟨And.left, ?_⟩, kept⟩
  exact fun h => ⟨h, nofun⟩

end GraphSplice.Search
