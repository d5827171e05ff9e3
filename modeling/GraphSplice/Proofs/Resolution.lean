import GraphSplice.Proofs.Binding
import GraphSplice.Proofs.Completeness

/-!
Validation beside the search. Both bind the matched edges of a rule to host edges: validation goes
once through the matched edges and takes the first host edge that is left for each, the search
assigns them pair by pair of vertices, in the order of its visits, and gives choices up again. Where
the rule has no edge predicates the two agree, since each finds the first of all bindings.
-/

namespace GraphSplice

open Search

variable {D : Domain} {host : Host D} {r : Rule D} {vertices : List VertexId}

namespace Rule

/-! ## Enough host edges -/

theorem length_pattern_edgesBetween (r : Rule D) (i j : Nat) :
    (r.pattern.edgesBetween i j).length = r.edges.countP fun edge => edge.ends.Joins i j := by
  unfold Pattern.edgesBetween Pattern.numbered
  rw [List.length_map, ← List.countP_eq_length_filter]
  have forget : ((r.edges.map (·.ends)).zipIdx.countP fun e => decide (e.1.Joins i j)) =
      ((r.edges.map (·.ends)).zipIdx.map (·.1)).countP fun ends => decide (ends.Joins i j) := by
    rw [List.countP_map]
    rfl
  exact (forget.trans (by rw [List.zipIdx_map_fst])).trans List.countP_map

/-- Any two vertices are sent to host vertices with at least as many edges between them. -/
def FitsEdges (r : Rule D) (host : Host D) (vertices : List VertexId) : Prop :=
  ∀ (i j : Nat) (a b : VertexId), vertices[i]? = some a → vertices[j]? = some b →
    (r.pattern.edgesBetween i j).length ≤ (host.edgesBetween a b).length

theorem affords_iff (wellFormed : r.WellFormed) (consistent : host.Consistent)
    (arity : vertices.length = r.vertices.length) :
    r.Affords host vertices ↔ r.FitsEdges host vertices := by
  constructor
  · intro affords i j a b hi hj
    cases between : r.pattern.edgesBetween i j with
    | nil => exact Nat.zero_le _
    | cons k ks =>
      obtain ⟨edge, found, joins⟩ := mem_pattern_edgesBetween_iff.mp
        (between ▸ List.mem_cons_self : k ∈ r.pattern.edgesBetween i j)
      obtain ⟨ends, bound, enough⟩ := affords edge (List.mem_of_getElem? found)
      rw [MatchedEdge.alongside, ← length_pattern_edgesBetween] at enough
      rw [← between]
      have first := boundEnds?_eq_some_iff.mp bound .first
      have second := boundEnds?_eq_some_iff.mp bound .second
      rcases joins with same | same
      · rw [same] at first second enough
        cases hi.symm.trans first
        cases hj.symm.trans second
        exact enough
      · rw [same] at first second enough
        cases hi.symm.trans second
        cases hj.symm.trans first
        rw [r.pattern.edgesBetween_comm]
        exact enough.trans_eq (congrArg _ (Graph.edgesBetween_comm consistent _ _))
  · intro fits edge hedge
    have image : ∀ side, ∃ a, vertices[edge.ends.get side]? = some a := fun side =>
      ⟨_, List.getElem?_eq_getElem (arity.symm ▸ (wellFormed.matched edge hedge).2 side)⟩
    obtain ⟨a, ha⟩ := image .first
    obtain ⟨b, hb⟩ := image .second
    refine ⟨⟨a, b⟩, boundEnds?_eq_some_iff.mpr (by rintro (_ | _) <;> assumption), ?_⟩
    rw [MatchedEdge.alongside, ← length_pattern_edgesBetween]
    exact fits _ _ a b ha hb

/-! ## The first binding -/

theorem HasPlainEdges.checkEdgeAt (plain : r.HasPlainEdges) (context : MatchContext D) (k t : Nat)
    (s : D.MatchState) : (r.checkEdgeAt context k t s).1 = true := by
  unfold Rule.checkEdgeAt
  cases found : r.edges[k]? with
  | none => rfl
  | some edge =>
    have none := Option.isNone_iff_eq_none.mp (plain edge (List.mem_of_getElem? found))
    rw [Option.bind_some, none]

/-- What is taken first from an ascending list is the least that is left. -/
theorem not_lt_of_find? {es taken : List EdgeId} {e d : EdgeId} (ascending : es.Pairwise (· < ·))
    (first : es.find? (· ∉ taken) = some e) (hd : d ∈ es) (free : d ∉ taken) : ¬ d < e := by
  obtain ⟨-, before, after, rfl, passed⟩ := List.find?_eq_some_iff_append.mp first
  rcases List.mem_append.mp hd with early | late
  · exact absurd (by simpa using passed d early) free
  · rcases List.mem_cons.mp late with rfl | later
    · exact irrefl d
    · have behind := (List.pairwise_append.mp ascending).2.1
      exact asymm ((List.pairwise_cons.mp behind).1 d later)

/-- Taking what is left first yields the first binding. -/
theorem firstBinding_of_chooseEdges (plain : r.HasPlainEdges) (consistent : host.Consistent)
    {edges : List EdgeId} (chosen : r.chooseEdges host vertices = .ok edges) :
    r.FirstBinding host vertices edges where
  each := forall₂_chooseEdges chosen
  passes k e _ := plain.passesEdge k e
  nodup := nodup_chooseEdges chosen
  first other bound := by
    obtain ⟨length, each⟩ := chooseEdges_eq_ok_iff.mp chosen
    have length' : other.length = edges.length := bound.each.length_eq.symm.trans length.symm
    intro less
    rcases List.lt_iff_exists.mp less with ⟨-, shorter⟩ | ⟨q, inside, inside', before, least⟩
    · exact shorter.ne length'
    -- At the first difference the edge of the other binding was still free and is not before.
    obtain ⟨e, taken, free⟩ := each q _ (List.getElem?_eq_getElem (length ▸ inside'))
    obtain ⟨d, there, record, ends, found, ends_bound, joins⟩ :=
      (forall₂_getElem? bound.each q).1 _ (List.getElem?_eq_getElem (length ▸ inside'))
    rw [List.getElem?_eq_getElem inside, Option.some.injEq] at there
    rw [List.getElem?_eq_getElem inside', Option.some.injEq] at taken
    rw [free?_eq ends_bound] at free
    rw [there, taken] at least
    have listed : d ∈ host.edgesBetween ends.first ends.second :=
      (Graph.mem_edgesBetween_iff consistent).mpr ⟨record, found, joins⟩
    have prior : edges.take q = other.take q := by
      refine List.ext_getElem (by simp [length']) fun i hi hi' => ?_
      have below : i < q := (List.length_take_le q edges).trans_lt' hi
      rw [List.getElem_take, List.getElem_take, before i below]
    have unused : d ∉ edges.take q := by
      rw [prior]
      have fresh := nodup_iff_not_mem_take.mp bound.nodup q d
      exact fresh (by rw [List.getElem?_eq_getElem inside, there])
    exact not_lt_of_find? (Graph.edgesBetween_ascending consistent _ _) free listed unused least

theorem keeps_hostGuide_edgeTerms (plain : r.HasPlainEdges) (limit : Option Nat)
    (I : Array Occurrence → Prop) :
    Keeps (r.hostGuide ⟨host, r.id⟩ limit) (r.edgeTerms host) False fun h => I h.found :=
  ⟨fun _ _ _ hs => ⟨⟨fun _ => trivial, nofun⟩, hs⟩,
    fun k t _ hs =>
      ⟨⟨fun _ => plain.passesEdge k ⟨t⟩, fun _ _ => plain.checkEdgeAt _ k t _⟩, hs⟩⟩

/-- The edges of an occurrence that a search finds are those that validation chooses. -/
theorem chooseEdges_of_mem_occurrences (wellFormed : r.WellFormed) (consistent : host.Consistent)
    (plain : r.HasPlainEdges) {limit : Option Nat} {s : D.MatchState} {o : Occurrence}
    (h : o ∈ (r.occurrences host limit s).1) : r.chooseEdges host o.vertices = .ok o.edges := by
  obtain ⟨e, embeds, rfl⟩ := exists_embeds_of_mem_occurrences wellFormed consistent
    (keeps_hostGuide_edgeTerms plain limit) h
  have first := embeds.edges_firstBinding consistent wellFormed
  have fits : r.FitsEdges host e.occurrence.vertices := by
    intro i j a b hi hj
    cases between : r.pattern.edgesBetween i j with
    | nil => exact Nat.zero_le _
    | cons k ks =>
      have different := (wellFormed.plain.distinct
        (between ▸ List.mem_cons_self : k ∈ r.pattern.edgesBetween i j)).1
      obtain ⟨chosen, assigned, -⟩ := embeds.assigned i j a.slot b.slot
        (Embedding.vertices_getElem?_eq_some.mp hi) (Embedding.vertices_getElem?_eq_some.mp hj)
        different
      rw [← between]
      simpa [Graph.asTarget] using assigned.1.length_le
  obtain ⟨edges, chosen⟩ := (exists_chooseEdges_iff consistent embeds.nodup_occurrence).mpr
    ((affords_iff wellFormed consistent (embeds.valid consistent wellFormed).arity).mpr fits)
  rw [chosen, (firstBinding_of_chooseEdges plain consistent chosen).unique first]

end Rule

namespace Grammar

variable {g : Grammar D}

/-- Distinct vertices of the host alone are a valid application of a rule just when there are as
many of them as matched vertices and enough host edges between any two, and the edges chosen for
them are distinct and join the right ones. What a search for the rule finds passes as it is; and
without edge predicates its edges are those chosen for its vertices. -/
theorem resolve_agrees (grown : g.Grown) (built : host.Built) {id : RuleId} {rule : Rule D}
    (registered : g.rule? id = some rule) :
    (∀ vertices : List VertexId, vertices.Nodup → (∀ v ∈ vertices, host.Contains v) →
      ((∃ r, Application.resolve ⟨id, .ofVertices vertices⟩ g.rules host = .ok r) ↔
        vertices.length = rule.vertices.length ∧ rule.FitsEdges host vertices) ∧
      ∀ r, Application.resolve ⟨id, .ofVertices vertices⟩ g.rules host = .ok r →
        r.rule = rule ∧ r.occurrence.vertices = vertices ∧ r.occurrence.edges.Nodup ∧
          List.Forall₂ (Rule.Binds host vertices) rule.edges r.occurrence.edges) ∧
    ∀ s, ∃ found, (g.find id host s).result = .ok found ∧ ∀ m ∈ found,
      Application.resolve ⟨id, m⟩ g.rules host = .ok ⟨rule, m⟩ ∧
      (rule.HasPlainEdges →
        Application.resolve ⟨id, .ofVertices m.vertices⟩ g.rules host = .ok ⟨rule, m⟩) := by
  obtain ⟨wellFormed, -⟩ := grown.sound.rules _ rule registered
  have consistent := built.consistent
  constructor
  · intro vertices nodup contained
    rw [resolve_eq _ registered]
    constructor
    · change (∃ r, rule.resolve host (.ofVertices vertices) = .ok r) ↔ _
      rw [← isOk_iff, Rule.isOk_resolve_ofVertices_iff consistent nodup, and_congr_right_iff]
      intro arity
      rw [Rule.affords_iff wellFormed consistent arity]
      exact and_iff_right contained
    · intro r resolved
      obtain ⟨-, -, edges, chosen, rfl⟩ := Rule.resolve_ofVertices_eq_ok_iff.mp resolved
      exact ⟨rfl, rfl, Rule.nodup_chooseEdges chosen, Rule.forall₂_chooseEdges chosen⟩
  · intro s
    refine ⟨_, result_find registered s, fun m hm => ?_⟩
    obtain ⟨-, resolves⟩ := Rule.resolves_of_mem_occurrences wellFormed consistent hm
    rw [resolve_eq _ registered, resolve_eq _ registered]
    refine ⟨resolves, fun plain => ?_⟩
    obtain ⟨arity, contained, -⟩ := Rule.resolve_eq_ok_iff.mp resolves
    exact Rule.resolve_ofVertices_eq_ok_iff.mpr ⟨arity, contained, m.edges,
      Rule.chooseEdges_of_mem_occurrences wellFormed consistent plain hm, rfl⟩

open Samples in
/-- Two of three parallel edges are found, and the same two are chosen. A single edge does not do. -/
theorem resolve_agrees_tripled :
    let g := single crossEdges
    let tripled := shaped 3 [(0, 1), (1, 0), (0, 1), (1, 2)]
    (¬ ∃ r, Application.resolve ⟨⟨0⟩, .ofVertices [⟨1⟩, ⟨2⟩]⟩ g.rules tripled = .ok r) ∧
    ∃ rule found, g.rule? ⟨0⟩ = some rule ∧ (g.find ⟨0⟩ tripled ()).result = .ok found ∧
      found ≠ [] ∧ ∀ m ∈ found,
        Application.resolve ⟨⟨0⟩, .ofVertices m.vertices⟩ g.rules tripled = .ok ⟨rule, m⟩ := by
  intro g tripled
  obtain ⟨rule, registered, plain⟩ : ∃ rule, g.rule? ⟨0⟩ = some rule ∧ rule.HasPlainEdges :=
    ⟨_, rfl, by decide +kernel⟩
  obtain ⟨chosen, agrees⟩ := resolve_agrees (grown_single crossEdges)
    (built_shaped 3 [(0, 1), (1, 0), (0, 1), (1, 2)]) registered
  constructor
  · rintro resolved
    obtain ⟨-, fits⟩ := (chosen [⟨1⟩, ⟨2⟩] (by decide) (by decide +kernel)).1.mp resolved
    have few := fits 0 1 ⟨1⟩ ⟨2⟩ rfl rfl
    cases registered
    revert few
    decide +kernel
  · obtain ⟨found, result, each⟩ := agrees ()
    obtain ⟨found', result', some⟩ : ∃ found', (g.find ⟨0⟩ tripled ()).result = .ok found' ∧
        found' ≠ [] := exists_of_check (by decide +kernel)
    cases result.symm.trans result'
    exact ⟨rule, found, registered, result, some, fun m hm => (each m hm).2 plain⟩

end Grammar

end GraphSplice
