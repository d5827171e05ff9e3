import GraphSplice.Proofs.Conflict

/-!
When a batch is refused for a stale application. The first application counts whose rule adds an
edge at a vertex that some application of the batch, it may be the same, cuts. Nothing else makes an
application stale: a vertex or an edge that it keeps may be cut elsewhere, and it does not matter
whether an added edge is spliced there or not.
-/

namespace GraphSplice

variable {D : Domain} {host : Host D} {batch : List (Resolved D)}

namespace Verdict

variable {x : Except ApplyError (Derivation D)}

theorem stale_iff (h : Verdict host batch x) {rule : RuleId} {i : Nat} :
    x = .error (.stale rule i) ↔ ∃ r, batch[i]? = some r ∧ r.id = rule ∧ r.Stale batch ∧
      ∀ j < i, ∀ r', batch[j]? = some r' → ¬ r'.Stale batch := by
  constructor
  · rintro rfl
    cases h with
    | stale _ first =>
      obtain ⟨a, r, found, stale, before, same⟩ := first
      cases same
      exact ⟨r, found, rfl, stale, before⟩
  · rintro ⟨r, found, rfl, stale, before⟩
    have hr := List.mem_of_getElem? found
    cases h with
    | stale e first =>
      obtain ⟨a, r', found', stale', before', rfl⟩ := first
      rcases Nat.lt_trichotomy a i with less | rfl | greater
      · exact absurd stale' (before a less r' found')
      · cases found.symm.trans found'
        rfl
      · exact absurd stale (before' i greater r found)
    | odd n fresh => exact absurd stale (fresh r hr)
    | crowded n fresh => exact absurd stale (fresh r hr)
    | derived a state fresh => exact absurd stale (fresh r hr)

end Verdict

namespace Grammar

variable {g : Grammar D} {applications : List Application}

/-- Some application binds the vertex to one that its rule cuts. -/
def Cuts (g : Grammar D) (applications : List Application) (v : VertexId) : Prop :=
  ∃ app ∈ applications, ∃ rule, g.rule? app.rule = some rule ∧ ∃ (p : Nat) (x : MatchedVertex D),
    rule.vertices[p]? = some x ∧ x.fate.isCut = true ∧ app.occurrence.vertices[p]? = some v

/-- The rule of the application at the position adds an edge at a matched vertex that is bound to
one that some application cuts. -/
def StaleAt (g : Grammar D) (applications : List Application) (i : Nat) : Prop :=
  ∃ app, applications[i]? = some app ∧ ∃ rule, g.rule? app.rule = some rule ∧
    ∃ edge ∈ rule.addedEdges, ∃ (side : Side) (p : Nat) (v : VertexId),
      edge.ends.get side = .matched p ∧ app.occurrence.vertices[p]? = some v ∧
      g.Cuts applications v

theorem cuts_iff (resolved : g.resolveAll host applications = .ok batch) (v : VertexId) :
    g.Cuts applications v ↔ CutsVertex batch v := by
  have each := forall₂_of_mapM resolved
  constructor
  · rintro ⟨app, happ, rule, registered, p, x, there, cut, bound⟩
    obtain ⟨i, place⟩ := List.getElem?_of_mem happ
    obtain ⟨r, place', resolves⟩ := (forall₂_getElem? each i).1 app place
    cases registered.symm.trans (rule?_of_resolve resolves)
    rw [← Application.vertices_of_resolve resolves] at bound
    exact ⟨r, List.mem_of_getElem? place', (x, v), mem_zip_of_getElem? there bound, cut, rfl⟩
  · rintro ⟨r, hr, ⟨x, _⟩, member, cut, rfl⟩
    obtain ⟨i, place⟩ := List.getElem?_of_mem hr
    obtain ⟨app, place', resolves⟩ := (forall₂_getElem? each i).2 r place
    obtain ⟨p, found⟩ := List.getElem?_of_mem member
    obtain ⟨there, bound⟩ := List.getElem?_zip_eq_some.mp found
    rw [Application.vertices_of_resolve resolves] at bound
    exact ⟨app, List.mem_of_getElem? place', r.rule, rule?_of_resolve resolves, p, x, there, cut,
      bound⟩

theorem staleAt_iff (resolved : g.resolveAll host applications = .ok batch) (i : Nat) :
    g.StaleAt applications i ↔ ∃ r, batch[i]? = some r ∧ r.Stale batch := by
  have each := forall₂_of_mapM resolved
  constructor
  · rintro ⟨app, place, rule, registered, edge, hedge, side, p, v, endpoint, bound, cut⟩
    obtain ⟨r, place', resolves⟩ := (forall₂_getElem? each i).1 app place
    cases registered.symm.trans (rule?_of_resolve resolves)
    rw [← Application.vertices_of_resolve resolves] at bound
    refine ⟨r, place', edge, hedge, side, ?_⟩
    rw [endpoint]
    exact ⟨v, bound, (cuts_iff resolved v).mp cut⟩
  · rintro ⟨r, place, edge, hedge, side, blocked⟩
    obtain ⟨app, place', resolves⟩ := (forall₂_getElem? each i).2 r place
    cases endpoint : edge.ends.get side with
    | created k =>
      rw [endpoint] at blocked
      exact blocked.elim
    | matched p =>
      rw [endpoint] at blocked
      obtain ⟨v, bound, cut⟩ := blocked
      rw [Application.vertices_of_resolve resolves] at bound
      exact ⟨app, place', r.rule, rule?_of_resolve resolves, edge, hedge, side, p, v, endpoint,
        bound, (cuts_iff resolved v).mpr cut⟩

/-- A valid batch is refused for a stale application exactly where one is stale, whatever else is
wrong with it, and the first of these is named, with its rule. -/
theorem derive_stale_iff (grown : g.Grown) (built : host.Built)
    (resolved : g.resolveAll host applications = .ok batch) (state : D.BuildState) :
    (∀ rule i, (g.derive host applications state).result = .error (.stale rule i) ↔
      (∃ app, applications[i]? = some app ∧ app.rule = rule) ∧ g.StaleAt applications i ∧
        ∀ j < i, ¬ g.StaleAt applications j) ∧
    ((∃ rule i, (g.derive host applications state).result = .error (.stale rule i)) ↔
      ∃ i, g.StaleAt applications i) := by
  have each := forall₂_of_mapM resolved
  have answer : ∀ rule i, (g.derive host applications state).result = .error (.stale rule i) ↔
      (∃ app, applications[i]? = some app ∧ app.rule = rule) ∧ g.StaleAt applications i ∧
        ∀ j < i, ¬ g.StaleAt applications j := by
    intro rule i
    rw [(verdict grown built.consistent resolved state).stale_iff]
    simp only [staleAt_iff resolved]
    constructor
    · rintro ⟨r, place, rfl, stale, before⟩
      obtain ⟨app, place', resolves⟩ := (forall₂_getElem? each i).2 r place
      refine ⟨⟨app, place', ?_⟩, ⟨r, place, stale⟩, ?_⟩
      · exact (grown.sound.rules _ r.rule (rule?_of_resolve resolves)).2.symm
      · rintro j less ⟨r', place'', stale'⟩
        exact before j less r' place'' stale'
    · rintro ⟨⟨app, place, rfl⟩, ⟨r, place', stale⟩, before⟩
      obtain ⟨r', place'', resolves⟩ := (forall₂_getElem? each i).1 app place
      cases place'.symm.trans place''
      refine ⟨r, place', (grown.sound.rules _ r.rule (rule?_of_resolve resolves)).2, stale, ?_⟩
      exact fun j less r' found stale' => before j less ⟨r', found, stale'⟩
  refine ⟨answer, ?_, ?_⟩
  · rintro ⟨rule, i, refused⟩
    exact ⟨i, ((answer rule i).mp refused).2.1⟩
  · intro some
    classical
    have first := Nat.find_spec some
    obtain ⟨app, place, -⟩ := id first
    exact ⟨app.rule, Nat.find some, (answer _ _).mpr
      ⟨⟨app, place, rfl⟩, first, fun j less => Nat.find_min some less⟩⟩

open Samples in
/-- A leaf is renewed at a vertex that a later application cuts. -/
theorem derive_stale_iff_cut_later :
    ((∃ app, [applyAt [0, 2] [1], applyAt [1, 3] [2], applyAt [0, 1] [0]][1]? = some app ∧
        app.rule = ⟨0⟩) ∧
      (single renewLeaf).StaleAt
        [applyAt [0, 2] [1], applyAt [1, 3] [2], applyAt [0, 1] [0]] 1 ∧
      ∀ j < 1, ¬ (single renewLeaf).StaleAt
        [applyAt [0, 2] [1], applyAt [1, 3] [2], applyAt [0, 1] [0]] j) := by
  obtain ⟨batch, resolved⟩ : ∃ batch,
      (single renewLeaf).resolveAll (shaped 4 [(0, 1), (0, 2), (1, 3)])
        [applyAt [0, 2] [1], applyAt [1, 3] [2], applyAt [0, 1] [0]] = .ok batch :=
    exists_of_isOk (by decide +kernel)
  exact ((derive_stale_iff (grown_single renewLeaf) (built_shaped 4 [(0, 1), (0, 2), (1, 3)])
    resolved ()).1 ⟨0⟩ 1).mp (eq_error_of_check (by decide +kernel))

end Grammar

end GraphSplice
