import GraphSplice.Matching
import GraphSplice.Proofs.Application
import GraphSplice.Proofs.Search.Extension

/-!
What a search for occurrences finds. Whatever the predicates answer, an occurrence that is found
binds distinct vertices and resolves as it is.
-/

namespace GraphSplice

open Search

variable {D : Domain} {host : Host D} {r : Rule D} {T : Terms} {e : Embedding}

/-- The vertices and edges of an embedding as handles. -/
def Embedding.occurrence (e : Embedding) : Occurrence :=
  ⟨e.vertices.map Handle.mk, e.edges.map Handle.mk⟩

theorem Rule.WellFormed.plain (wellFormed : r.WellFormed) : r.pattern.Plain := by
  intro ends h
  obtain ⟨edge, hedge, rfl⟩ := List.mem_map.mp h
  exact wellFormed.matched edge hedge

theorem Rule.mem_pattern_edgesBetween_iff {i j k : Nat} : k ∈ r.pattern.edgesBetween i j ↔
    ∃ edge, r.edges[k]? = some edge ∧ edge.ends.Joins i j := by
  rw [Pattern.mem_edgesBetween_iff]
  change (∃ ends, (r.edges.map (·.ends))[k]? = some ends ∧ _) ↔ _
  simp only [List.getElem?_map, Option.map_eq_some_iff]
  constructor
  · rintro ⟨_, ⟨edge, found, rfl⟩, joins⟩
    exact ⟨edge, found, joins⟩
  · rintro ⟨edge, found, joins⟩
    exact ⟨_, ⟨edge, found, rfl⟩, joins⟩

theorem Embedding.vertices_getElem?_eq_some {i : Nat} {v : VertexId} :
    e.occurrence.vertices[i]? = some v ↔ e.vertices[i]? = some v.slot := by
  change (e.vertices.map Handle.mk)[i]? = some v ↔ _
  rw [List.getElem?_map, Option.map_eq_some_iff]
  constructor
  · rintro ⟨t, found, rfl⟩
    exact found
  · exact fun found => ⟨v.slot, found, rfl⟩

theorem Embedding.edges_getElem?_eq_some {k : Nat} {d : EdgeId} :
    e.occurrence.edges[k]? = some d ↔ e.edges[k]? = some d.slot := by
  change (e.edges.map Handle.mk)[k]? = some d ↔ _
  rw [List.getElem?_map, Option.map_eq_some_iff]
  constructor
  · rintro ⟨t, found, rfl⟩
    exact found
  · exact fun found => ⟨d.slot, found, rfl⟩

theorem handle_mk_injective (kind : Kind) : Function.Injective (@Handle.mk kind) :=
  fun _ _ same => congrArg Handle.slot same

namespace Search.Embeds

variable (h : Embeds T r.pattern host.asTarget e)

include h

theorem nodup_occurrence : e.occurrence.vertices.Nodup :=
  h.nodup.map (handle_mk_injective .vertex)

/-- Each pattern edge is bound to a host edge between the images of its ends. -/
theorem mem_edgesBetween (consistent : host.Consistent) (wellFormed : r.WellFormed) {k : Nat}
    {edge : MatchedEdge D} {d : EdgeId} (hedge : r.edges[k]? = some edge)
    (hd : e.occurrence.edges[k]? = some d) : ∃ a b,
      e.occurrence.vertices[edge.ends.first]? = some a ∧
      e.occurrence.vertices[edge.ends.second]? = some b ∧ d ∈ host.edgesBetween a b ∧
      T.edge k d.slot := by
  obtain ⟨different, inside⟩ := wellFormed.matched edge (List.mem_of_getElem? hedge)
  have image : ∀ side, ∃ a, e.vertices[edge.ends.get side]? = some a := fun side =>
    ⟨_, List.getElem?_eq_getElem (h.arity.symm ▸ inside side)⟩
  obtain ⟨a, ha⟩ := image .first
  obtain ⟨b, hb⟩ := image .second
  obtain ⟨chosen, assigned, there⟩ := h.assigned _ _ a b ha hb different
  have between : k ∈ r.pattern.edgesBetween edge.ends.first edge.ends.second :=
    Rule.mem_pattern_edgesBetween_iff.mpr ⟨edge, hedge, Ends.joins_self _⟩
  obtain ⟨t, pair⟩ := assigned.1.exists_target between
  have bound := there _ pair
  rw [Embedding.edges_getElem?_eq_some.mp hd] at bound
  cases bound
  have accepted := List.forall₂_iff_zip.mp assigned.1.each
  obtain ⟨member, holds⟩ := accepted.2 pair
  refine ⟨⟨a⟩, ⟨b⟩, Embedding.vertices_getElem?_eq_some.mpr ha,
    Embedding.vertices_getElem?_eq_some.mpr hb, ?_, holds⟩
  rw [Graph.mem_edgesBetween_iff consistent]
  exact (Graph.mem_asTarget_edgesBetween_iff consistent).mp member

theorem valid (consistent : host.Consistent) (wellFormed : r.WellFormed) :
    Resolved.Valid host ⟨r, e.occurrence⟩ := by
  constructor
  case rule => exact wellFormed
  case arity => exact (List.length_map _).trans h.arity
  case vertices =>
    intro v hv
    obtain ⟨t, ht, rfl⟩ := List.mem_map.mp hv
    exact h.inside t ht
  case edgeArity => exact (List.length_map _).trans (h.edgeArity.trans (List.length_map _))
  case edges =>
    intro k edge d hedge hd
    obtain ⟨a, b, ha, hb, member, -⟩ := h.mem_edgesBetween consistent wellFormed hedge hd
    obtain ⟨record, found, joins⟩ := (Graph.mem_edgesBetween_iff consistent).mp member
    exact ⟨record, ⟨a, b⟩, found, by simp only [Rule.boundEnds?, ha, hb], joins⟩

end Search.Embeds

/-! ## Any predicates -/

namespace Rule

/-- The terms of a search whose predicates may answer anything. -/
def anyTerms : Terms := ⟨False, fun _ _ => True, fun _ _ => True⟩

/-- The occurrence binds distinct vertices and resolves as it is. -/
def Resolves (r : Rule D) (host : Host D) (o : Occurrence) : Prop :=
  o.vertices.Nodup ∧ r.resolve host o = .ok ⟨r, o⟩

theorem keeps_hostGuide_found (context : MatchContext D) (limit : Option Nat)
    (I : Array Occurrence → Prop) :
    Keeps (r.hostGuide context limit) anyTerms False fun h => I h.found :=
  ⟨fun _ _ _ hs => ⟨⟨fun _ => trivial, nofun⟩, hs⟩, fun _ _ _ hs => ⟨⟨fun _ => trivial, nofun⟩, hs⟩⟩

theorem takeEmbedding_found (r : Rule D) (context : MatchContext D) (limit : Option Nat)
    (m : Embedding) (h : Harvest D) :
    (r.takeEmbedding context limit m h).2.found = h.found ∨
      (r.takeEmbedding context limit m h).2.found = h.found.push m.occurrence := by
  unfold takeEmbedding
  dsimp only
  split
  · exact .inl rfl
  · split
    · exact .inl rfl
    · exact .inr rfl

/-- The occurrences found are embeddings under any terms to which the predicates keep. -/
theorem exists_embeds_of_mem_occurrences (wellFormed : r.WellFormed)
    (consistent : host.Consistent) {limit : Option Nat} {total : Prop}
    (keeps : ∀ I : Array Occurrence → Prop,
      Keeps (r.hostGuide ⟨host, r.id⟩ limit) T total fun h => I h.found)
    {s : D.MatchState} {o : Occurrence} (h : o ∈ (r.occurrences host limit s).1) :
    ∃ e, Embeds T r.pattern host.asTarget e ∧ e.occurrence = o := by
  unfold occurrences at h
  split at h
  · cases h
  · have kept := run_keeps wellFormed.plain (Graph.regular_asTarget consistent)
      (keeps fun found => ∀ o ∈ found, ∃ e, Embeds T r.pattern host.asTarget e ∧ e.occurrence = o)
      (fun m s embeds hs => by
        intro o ho
        rcases r.takeEmbedding_found ⟨host, r.id⟩ limit m s with same | same
        · exact hs o (same ▸ ho)
        · change o ∈ (r.takeEmbedding ⟨host, r.id⟩ limit m s).2.found at ho
          rw [same, Array.mem_push] at ho
          rcases ho with before | rfl
          · exact hs o before
          · exact ⟨m, embeds, rfl⟩)
      (⟨s, [], #[]⟩ : Harvest D) (by simp)
    exact kept o (Array.mem_toList_iff.mp h)

theorem resolves_of_mem_occurrences (wellFormed : r.WellFormed) (consistent : host.Consistent)
    {limit : Option Nat} {s : D.MatchState} {o : Occurrence}
    (h : o ∈ (r.occurrences host limit s).1) : r.Resolves host o := by
  obtain ⟨e, embeds, rfl⟩ := exists_embeds_of_mem_occurrences wellFormed consistent
    (keeps_hostGuide_found ⟨host, r.id⟩ limit) h
  exact ⟨embeds.nodup_occurrence, resolve_of_valid (embeds.valid consistent wellFormed)⟩

end Rule

namespace Grammar

variable {g : Grammar D}

/-- What a search for a registered rule answers. -/
theorem result_find {id : RuleId} {rule : Rule D} (registered : g.rule? id = some rule)
    (s : D.MatchState) : (g.find id host s).result =
      .ok (rule.occurrences host g.settings.matchLimit s).1 := by
  unfold find
  rw [registered]

/-- What a search over all rules finds is found by the search for the rule. -/
theorem occurs_of_mem_findAll (sound : g.Sound) (s : D.MatchState) :
    ∀ app ∈ (g.findAll host s).applications, ∃ rule s', g.rule? app.rule = some rule ∧
      app.occurrence ∈ (rule.occurrences host g.settings.matchLimit s').1 := by
  have seen : ∀ (rules : List (Rule D)) (seen : Sighting D), (∀ rule ∈ rules, rule ∈ g.rules.toList) →
      (∀ app ∈ seen.applications, ∃ rule s', g.rule? app.rule = some rule ∧
        app.occurrence ∈ (rule.occurrences host g.settings.matchLimit s').1) →
      ∀ app ∈ (rules.foldl (g.sight host) seen).applications, ∃ rule s',
        g.rule? app.rule = some rule ∧
        app.occurrence ∈ (rule.occurrences host g.settings.matchLimit s').1 := by
    intro rules
    induction rules with
    | nil => exact fun _ _ before => before
    | cons rule rest ih =>
      intro seen registered before
      apply ih _ fun rule hr => registered rule (List.mem_cons_of_mem _ hr)
      intro app happ
      rcases List.mem_append.mp happ with old | new
      · exact before app old
      · obtain ⟨o, ho, rfl⟩ := List.mem_map.mp new
        obtain ⟨i, found⟩ := List.getElem?_of_mem (registered rule List.mem_cons_self)
        rw [Array.getElem?_toList] at found
        refine ⟨rule, seen.state, ?_, ho⟩
        unfold rule?
        rw [(sound.rules i rule found).2]
        exact found
  exact seen g.rules.toList ⟨[], s, []⟩ (fun _ hr => hr) nofun

/-- The applications that a search over all rules finds bind distinct vertices and are valid. -/
theorem resolves_of_mem_findAll (sound : g.Sound) (consistent : host.Consistent)
    (s : D.MatchState) : ∀ app ∈ (g.findAll host s).applications, ∃ rule,
      g.rule? app.rule = some rule ∧ rule.Resolves host app.occurrence := by
  intro app happ
  obtain ⟨rule, s', registered, found⟩ := occurs_of_mem_findAll sound s app happ
  exact ⟨rule, registered,
    Rule.resolves_of_mem_occurrences (sound.rules _ rule registered).1 consistent found⟩

end Grammar

end GraphSplice
