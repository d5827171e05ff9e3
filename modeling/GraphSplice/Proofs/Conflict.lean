import GraphSplice.Proofs.ConflictTable
import GraphSplice.Proofs.Footprint
import GraphSplice.Proofs.Independence
import GraphSplice.Proofs.Rule.Overlay
import GraphSplice.Proofs.Samples

/-!
What a missing entry in the table of conflicts promises. Two occurrences that agree in their tags
where they meet fall on each other, and the analysis looks at the single vertices of this overlap
and at its pairs of joined vertices. So a rule without an entry cuts no vertex that the other keeps,
and no application goes stale. Of the edges the analysis looks at one assignment for each pair of
vertices, and not at all at those that go with a cut vertex.
-/

namespace GraphSplice

variable {D : Domain} {host : Host D} {r s : Resolved D}

theorem Fate.role_of_isCut_eq_false {Removal : Type} {f : Fate Removal} (h : f.isCut = false) :
    f.role = .kept := by
  cases f with
  | kept => rfl
  | cut => cases h

namespace Rule

variable {victim cutter : Rule D}

/-- Of the edges parallel to `k` and to `t` there is more than one, and the one assignment of these
that the analysis tries, if any, sends no kept edge to a cut one. -/
def Overlooks (victim cutter : Rule D) (k t : Nat) : Prop := ∃ i j a b,
  k ∈ victim.pattern.edgesBetween i j ∧ t ∈ cutter.pattern.edgesBetween a b ∧
    (1 < (victim.pattern.edgesBetween i j).length ∨ 1 < (cutter.pattern.edgesBetween a b).length) ∧
    ∀ chosen, victim.Pairs cutter i j a b chosen →
      ∀ x ∈ (victim.pattern.edgesBetween i j).zip chosen,
        victim.edgeRole? x.1 = some .kept → cutter.edgeRole? x.2 ≠ some .cut

end Rule

/-! ## Overlaps of two applications -/

namespace Resolved

/-- Matched vertices bound to one vertex have equal tags. -/
def VertexTagsAgree (r s : Resolved D) : Prop :=
  ∀ x ∈ r.rule.vertices.zip r.occurrence.vertices,
    ∀ y ∈ s.rule.vertices.zip s.occurrence.vertices, x.2 = y.2 → x.1.tag = y.1.tag

/-- Matched edges bound to one edge have equal tags. -/
def EdgeTagsAgree (r s : Resolved D) : Prop :=
  ∀ x ∈ r.rule.edges.zip r.occurrence.edges,
    ∀ y ∈ s.rule.edges.zip s.occurrence.edges, x.2 = y.2 → x.1.tag = y.1.tag

instance (r s : Resolved D) : Decidable (r.VertexTagsAgree s) :=
  inferInstanceAs (Decidable (∀ x ∈ _, ∀ y ∈ _, _))

instance (r s : Resolved D) : Decidable (r.EdgeTagsAgree s) :=
  inferInstanceAs (Decidable (∀ x ∈ _, ∀ y ∈ _, _))

theorem VertexTagsAgree.tag_eq (agree : r.VertexTagsAgree s) (valid : r.Valid host)
    (valid' : s.Valid host) {i j : Nat} {v : VertexId} (hi : r.occurrence.vertices[i]? = some v)
    (hj : s.occurrence.vertices[j]? = some v) : r.rule.vertexTag? i = s.rule.vertexTag? j := by
  have first := List.getElem?_eq_getElem (valid.arity ▸ (List.getElem?_eq_some_iff.mp hi).1)
  have second := List.getElem?_eq_getElem (valid'.arity ▸ (List.getElem?_eq_some_iff.mp hj).1)
  have same := agree _ (mem_zip_of_getElem? first hi) _ (mem_zip_of_getElem? second hj) rfl
  simp only [Rule.vertexTag?, first, second, Option.map_some]
  exact congrArg some same

/-- A vertex that one application keeps and the other cuts puts their rules in conflict. -/
theorem conflicts_of_vertex (valid : r.Valid host) (valid' : s.Valid host)
    (agree : r.VertexTagsAgree s) {x y : MatchedVertex D} {v : VertexId}
    (hx : (x, v) ∈ r.rule.vertices.zip r.occurrence.vertices)
    (hy : (y, v) ∈ s.rule.vertices.zip s.occurrence.vertices)
    (kept : x.fate.isCut = false) (cut : y.fate.isCut = true) :
    r.rule.conflicts s.rule = true := by
  obtain ⟨i, hi⟩ := List.mem_iff_getElem?.mp hx
  obtain ⟨j, hj⟩ := List.mem_iff_getElem?.mp hy
  obtain ⟨first, boundI⟩ := List.getElem?_zip_eq_some.mp hi
  obtain ⟨second, boundJ⟩ := List.getElem?_zip_eq_some.mp hj
  refine Rule.conflicts_of_vertex valid.rule.plain valid'.rule.plain (i := i) (t := j)
    (agree.tag_eq valid valid' boundI boundJ) ?_ ?_
  · simp only [Rule.vertexRole?, first, Option.map_some, Fate.role_of_isCut_eq_false kept]
  · simp only [Rule.vertexRole?, second, Option.map_some, Fate.isCut_iff.mp cut]

/-- Applications that bind one edge bind the vertices at its ends alike. -/
theorem exists_overlap (valid : r.Valid host) (valid' : s.Valid host) {k t : Nat} {e : EdgeId}
    (hk : r.occurrence.edges[k]? = some e) (ht : s.occurrence.edges[t]? = some e) :
    ∃ i j a b v w, k ∈ r.rule.pattern.edgesBetween i j ∧ t ∈ s.rule.pattern.edgesBetween a b ∧
      r.occurrence.vertices[i]? = some v ∧ s.occurrence.vertices[a]? = some v ∧
      r.occurrence.vertices[j]? = some w ∧ s.occurrence.vertices[b]? = some w := by
  have inside := valid.edgeArity ▸ (List.getElem?_eq_some_iff.mp hk).1
  have inside' := valid'.edgeArity ▸ (List.getElem?_eq_some_iff.mp ht).1
  obtain ⟨record, ends, found, bound, joins⟩ :=
    valid.edges k _ e (List.getElem?_eq_getElem inside) hk
  obtain ⟨record', ends', found', bound', joins'⟩ :=
    valid'.edges t _ e (List.getElem?_eq_getElem inside') ht
  cases found.symm.trans found'
  have between := Rule.mem_pattern_edgesBetween_iff.mpr
    ⟨_, List.getElem?_eq_getElem inside, Ends.joins_self _⟩
  have between' := Rule.mem_pattern_edgesBetween_iff.mpr
    ⟨_, List.getElem?_eq_getElem inside', Ends.joins_self _⟩
  have at' := Rule.boundEnds?_eq_some_iff.mp bound
  have at'' := Rule.boundEnds?_eq_some_iff.mp bound'
  rcases joins.unique joins' with ⟨first, second⟩ | ⟨first, second⟩
  · exact ⟨_, _, _, _, _, _, between, between', at' .first,
      (at'' .first).trans (congrArg some first), at' .second,
      (at'' .second).trans (congrArg some second)⟩
  · exact ⟨_, _, _, _, _, _, between, Pattern.edgesBetween_comm _ _ _ ▸ between', at' .first,
      (at'' .second).trans (congrArg some second), at' .second,
      (at'' .first).trans (congrArg some first)⟩

/-- An edge that one application keeps and the other cuts puts their rules in conflict, or else the
analysis overlooks it. -/
theorem conflicts_of_edge (valid : r.Valid host) (valid' : s.Valid host)
    (vertexTags : r.VertexTagsAgree s) (edgeTags : r.EdgeTagsAgree s) {x y : MatchedEdge D}
    {k t : Nat} {e : EdgeId} (hx : r.rule.edges[k]? = some x) (hk : r.occurrence.edges[k]? = some e)
    (hy : s.rule.edges[t]? = some y) (ht : s.occurrence.edges[t]? = some e)
    (kept : x.fate.isCut = false) (cut : y.fate.isCut = true) :
    r.rule.conflicts s.rule = true ∨ r.rule.Overlooks s.rule k t := by
  obtain ⟨i, j, a, b, v, w, betweenK, betweenT, hi, ha, hj, hb⟩ :=
    exists_overlap valid valid' hk ht
  have tag : r.rule.edgeTag? k = s.rule.edgeTag? t := by
    have same : x.tag = y.tag :=
      edgeTags _ (mem_zip_of_getElem? hx hk) _ (mem_zip_of_getElem? hy ht) rfl
    simp only [Rule.edgeTag?, hx, hy, Option.map_some, same]
  have keptK : r.rule.edgeRole? k = some .kept := by
    simp only [Rule.edgeRole?, hx, Option.map_some, Fate.role_of_isCut_eq_false kept]
  have cutT : s.rule.edgeRole? t = some .cut := by
    simp only [Rule.edgeRole?, hy, Option.map_some, Fate.isCut_iff.mp cut]
  by_cases conflict : r.rule.conflicts s.rule = true
  · exact .inl conflict
  have missed : ∀ chosen, r.rule.Pairs s.rule i j a b chosen →
      ∀ x ∈ (r.rule.pattern.edgesBetween i j).zip chosen,
        r.rule.edgeRole? x.1 = some .kept → s.rule.edgeRole? x.2 ≠ some .cut := by
    intro chosen pairs x hx kept cut
    exact conflict (Rule.conflicts_of_pairs valid.rule.plain valid'.rule.plain
      (vertexTags.tag_eq valid valid' hi ha) (vertexTags.tag_eq valid valid' hj hb) pairs hx kept
      cut)
  refine .inr ⟨i, j, a, b, betweenK, betweenT, ?_, missed⟩
  by_contra few
  rw [not_or, Nat.not_lt, Nat.not_lt] at few
  have aloneK := eq_singleton_of_mem few.1 betweenK
  have aloneT := eq_singleton_of_mem few.2 betweenT
  refine missed [t] ?_ (k, t) (by simp [aloneK]) keptK cutT
  unfold Rule.Pairs
  rw [aloneK, aloneT]
  exact Search.assignsFirst_singleton tag

/-- What the second application removes and the first one keeps, where the analysis does not put
their rules in conflict. -/
theorem meets_of_compatible (consistent : host.Consistent) (valid : r.Valid host)
    (valid' : s.Valid host) (vertexTags : r.VertexTagsAgree s) (edgeTags : r.EdgeTagsAgree s)
    (compatible : r.rule.conflicts s.rule = false) :
    (∀ v ∈ (Footprint.of host s).verticesWritten, v ∉ (Footprint.of host r).verticesRead) ∧
    ∀ e ∈ (Footprint.of host s).edgesWritten, e ∈ (Footprint.of host r).edgesRead →
      (∃ v, v ∈ (Footprint.of host r).verticesWritten ∧ v ∈ (Footprint.of host s).verticesWritten ∧
        e ∈ host.incident v) ∨
      ∃ k t, r.occurrence.edges[k]? = some e ∧ s.occurrence.edges[t]? = some e ∧
        r.rule.Overlooks s.rule k t := by
  have apart : ∀ {x y : MatchedVertex D} {v : VertexId},
      (x, v) ∈ r.rule.vertices.zip r.occurrence.vertices →
      (y, v) ∈ s.rule.vertices.zip s.occurrence.vertices →
      y.fate.isCut = true → x.fate.isCut = true := by
    intro x y v hx hy cut
    by_contra kept
    rw [Bool.not_eq_true] at kept
    rw [conflicts_of_vertex valid valid' vertexTags hx hy kept cut] at compatible
    cases compatible
  constructor
  · intro v written read
    obtain ⟨⟨x, _⟩, hx, kept, rfl⟩ := Footprint.mem_verticesRead_iff.mp read
    obtain ⟨⟨y, _⟩, hy, cut, rfl⟩ :=
      cutsVertex_singleton_iff.mp (Footprint.mem_verticesWritten_iff.mp written)
    exact absurd (apart hx hy cut) (Bool.eq_false_iff.mp kept)
  · intro e written read
    obtain ⟨⟨x, _⟩, hx, kept, rfl⟩ := Footprint.mem_edgesRead_iff.mp read
    obtain ⟨k, hk⟩ := List.mem_iff_getElem?.mp hx
    obtain ⟨edgeK, boundK⟩ := List.getElem?_zip_eq_some.mp hk
    rcases Footprint.mem_edgesWritten_iff.mp written with cutEdge | ⟨v, cutVertex, incident⟩
    · obtain ⟨⟨y, _⟩, hy, cut, rfl⟩ := cutsEdge_singleton_iff.mp cutEdge
      obtain ⟨t, ht⟩ := List.mem_iff_getElem?.mp hy
      obtain ⟨edgeT, boundT⟩ := List.getElem?_zip_eq_some.mp ht
      rcases conflicts_of_edge valid valid' vertexTags edgeTags edgeK boundK edgeT boundT kept cut
        with conflict | overlooked
      · rw [conflict] at compatible
        cases compatible
      · exact .inr ⟨k, t, boundK, boundT, overlooked⟩
    · -- The edge ends at a vertex that both bind, so the first application cuts that one as well.
      refine .inl ⟨v, ?_, Footprint.mem_verticesWritten_iff.mpr cutVertex, incident⟩
      obtain ⟨record, ends, found, bound, joins⟩ := valid.edges k _ _ edgeK boundK
      obtain ⟨record', found', touches⟩ := (Graph.mem_incident_iff consistent).mp incident
      cases found.symm.trans found'
      have atEnds := Rule.boundEnds?_eq_some_iff.mp bound
      have member : v ∈ r.occurrence.vertices := by
        rcases joins.eq_of_touches touches with rfl | rfl
        · exact List.mem_of_getElem? (atEnds .first)
        · exact List.mem_of_getElem? (atEnds .second)
      obtain ⟨⟨y, _⟩, hy, cut, rfl⟩ := cutsVertex_singleton_iff.mp cutVertex
      obtain ⟨z, hz⟩ := valid.zip_vertex member
      exact Footprint.mem_verticesWritten_iff.mpr
        (cutsVertex_singleton_iff.mpr ⟨_, hz, apart hz hy cut, rfl⟩)

end Resolved

namespace Grammar

variable {g : Grammar D}

theorem footprint_of_mem_find (grown : g.Grown) (built : host.Built) {id : RuleId} {rule : Rule D}
    (registered : g.rule? id = some rule) {found : List Occurrence} {m : D.MatchState}
    (h : (g.find id host m).result = .ok found) {o : Occurrence} (ho : o ∈ found) :
    Resolved.Valid host ⟨rule, o⟩ ∧ g.footprint host ⟨id, o⟩ = .ok (Footprint.of host ⟨rule, o⟩) := by
  have wellFormed := (grown.sound.rules _ rule registered).1
  have resolves : rule.Resolves host o := by
    rw [result_find registered] at h
    cases h
    exact Rule.resolves_of_mem_occurrences wellFormed built.consistent ho
  refine ⟨(Rule.valid_of_resolve wellFormed resolves.2).1, ?_⟩
  unfold footprint
  rw [resolve_eq _ registered, resolves.2]
  rfl

/-- Without an entry for two rules, an application of the second removes no vertex that one of the
first keeps, and an edge only if it goes with a vertex that both remove or is overlooked among
parallel ones. -/
theorem meets_of_not_inConflict (grown : g.Grown) (built : host.Built) {a b : RuleId}
    {victim cutter : Rule D} (first : g.rule? a = some victim) (second : g.rule? b = some cutter)
    (unrecorded : g.inConflict a b = false) {found found' : List Occurrence} {m m' : D.MatchState}
    (finds : (g.find a host m).result = .ok found) (finds' : (g.find b host m').result = .ok found')
    {o o' : Occurrence} (ho : o ∈ found) (ho' : o' ∈ found')
    (vertexTags : Resolved.VertexTagsAgree ⟨victim, o⟩ ⟨cutter, o'⟩)
    (edgeTags : Resolved.EdgeTagsAgree ⟨victim, o⟩ ⟨cutter, o'⟩) :
    ∃ kept removed, g.footprint host ⟨a, o⟩ = .ok kept ∧ g.footprint host ⟨b, o'⟩ = .ok removed ∧
      (∀ v ∈ removed.verticesWritten, v ∉ kept.verticesRead) ∧
      ∀ e ∈ removed.edgesWritten, e ∈ kept.edgesRead →
        (∃ v, v ∈ kept.verticesWritten ∧ v ∈ removed.verticesWritten ∧ e ∈ host.incident v) ∨
        ∃ k t, o.edges[k]? = some e ∧ o'.edges[t]? = some e ∧ victim.Overlooks cutter k t := by
  obtain ⟨valid, footprint⟩ := footprint_of_mem_find grown built first finds ho
  obtain ⟨valid', footprint'⟩ := footprint_of_mem_find grown built second finds' ho'
  refine ⟨_, _, footprint, footprint', ?_⟩
  apply Resolved.meets_of_compatible built.consistent valid valid' vertexTags edgeTags
  rw [Bool.eq_false_iff] at unrecorded ⊢
  exact fun conflict => unrecorded ((grown.inConflict_iff first second).mpr conflict)

open Samples in
/-- A leaf grown at an end of an edge that is split. -/
theorem meets_of_not_inConflict_path :
    let g := pair growLeaf splitEdge
    let path := shaped 3 [(0, 1), (1, 2)]
    ∃ kept removed, g.footprint path ⟨⟨0⟩, ⟨[⟨1⟩], []⟩⟩ = .ok kept ∧
      g.footprint path ⟨⟨1⟩, ⟨[⟨0⟩, ⟨1⟩], [⟨0⟩]⟩⟩ = .ok removed ∧ removed.edgesWritten = [⟨0⟩] ∧
      ∀ v ∈ removed.verticesWritten, v ∉ kept.verticesRead := by
  intro g path
  obtain ⟨victim, first, cutter, second, vertexTags, edgeTags⟩ :
      ∃ victim, g.rule? ⟨0⟩ = some victim ∧ ∃ cutter, g.rule? ⟨1⟩ = some cutter ∧
        Resolved.VertexTagsAgree ⟨victim, ⟨[⟨1⟩], []⟩⟩ ⟨cutter, ⟨[⟨0⟩, ⟨1⟩], [⟨0⟩]⟩⟩ ∧
        Resolved.EdgeTagsAgree ⟨victim, ⟨[⟨1⟩], []⟩⟩ ⟨cutter, ⟨[⟨0⟩, ⟨1⟩], [⟨0⟩]⟩⟩ :=
    ⟨_, rfl, _, rfl, by decide +kernel⟩
  obtain ⟨found, finds, ho⟩ : ∃ found, (g.find ⟨0⟩ path ()).result = .ok found ∧
      (⟨[⟨1⟩], []⟩ : Occurrence) ∈ found := exists_of_check (by decide +kernel)
  obtain ⟨found', finds', ho'⟩ : ∃ found, (g.find ⟨1⟩ path ()).result = .ok found ∧
      (⟨[⟨0⟩, ⟨1⟩], [⟨0⟩]⟩ : Occurrence) ∈ found := exists_of_check (by decide +kernel)
  obtain ⟨removed', footprint', written⟩ : ∃ removed,
      g.footprint path ⟨⟨1⟩, ⟨[⟨0⟩, ⟨1⟩], [⟨0⟩]⟩⟩ = .ok removed ∧ removed.edgesWritten = [⟨0⟩] :=
    exists_of_check (by decide +kernel)
  obtain ⟨kept, removed, footprint, footprint'', vertices, -⟩ :=
    meets_of_not_inConflict (grown_pair growLeaf splitEdge) (built_shaped 3 [(0, 1), (1, 2)]) first
      second (by decide +kernel) finds finds' ho ho' vertexTags edgeTags
  cases footprint'.symm.trans footprint''
  exact ⟨kept, removed', footprint, footprint', written, vertices⟩

open Samples in
/-- The second of two parallel edges is kept by the one rule and cut by the other, and the table
has no entry: the analysis sends the kept edge to the first one and tries no other. -/
theorem cut_without_conflict :
    let g := pair keepSecond thinDouble
    let double := shaped 2 [(0, 1), (0, 1)]
    let o : Occurrence := ⟨[⟨0⟩, ⟨1⟩], [⟨1⟩]⟩
    let o' : Occurrence := ⟨[⟨0⟩, ⟨1⟩], [⟨0⟩, ⟨1⟩]⟩
    g.inConflict ⟨0⟩ ⟨1⟩ = false ∧
    (∃ found, (g.find ⟨0⟩ double ()).result = .ok found ∧ o ∈ found) ∧
    (∃ found, (g.find ⟨1⟩ double ()).result = .ok found ∧ o' ∈ found) ∧
    (∃ victim, g.rule? ⟨0⟩ = some victim ∧ ∃ cutter, g.rule? ⟨1⟩ = some cutter ∧
      Resolved.VertexTagsAgree ⟨victim, o⟩ ⟨cutter, o'⟩ ∧
      Resolved.EdgeTagsAgree ⟨victim, o⟩ ⟨cutter, o'⟩) ∧
    (∃ kept, g.footprint double ⟨⟨0⟩, o⟩ = .ok kept ∧ ⟨1⟩ ∈ kept.edgesRead) ∧
    ∃ removed, g.footprint double ⟨⟨1⟩, o'⟩ = .ok removed ∧ ⟨1⟩ ∈ removed.edgesWritten := by
  intro g double o o'
  exact ⟨by decide +kernel, exists_of_check (by decide +kernel), exists_of_check (by decide +kernel),
    ⟨_, rfl, _, rfl, by decide +kernel⟩, exists_of_check (by decide +kernel),
    exists_of_check (by decide +kernel)⟩

/-! ## Stale applications -/

theorem rule?_of_resolve {app : Application} {r : Resolved D}
    (h : app.resolve g.rules host = .ok r) : g.rule? app.rule = some r.rule := by
  cases found : g.rule? app.rule with
  | none =>
    rw [resolve_of_missing app found] at h
    cases h
  | some rule =>
    rw [resolve_eq app found] at h
    obtain ⟨-, -, edges, -, rfl⟩ := Rule.resolve_eq_ok_iff.mp h
    rfl

/-- Where the applications of a batch agree in their tags and no rule has an entry for that of
another application, none of them is stale. -/
theorem derive_ne_stale_of_not_inConflict (grown : g.Grown) (built : host.Built)
    {applications : List Application} {batch : List (Resolved D)}
    (resolved : g.resolveAll host applications = .ok batch)
    (distinct : ∀ app ∈ applications, app.occurrence.vertices.Nodup)
    (tags : ∀ r ∈ batch, ∀ s ∈ batch, r.VertexTagsAgree s)
    (unrecorded : ∀ (i j : Nat) (a b : Application), i ≠ j → applications[i]? = some a →
      applications[j]? = some b → g.inConflict a.rule b.rule = false)
    (state : D.BuildState) (rule : RuleId) (application : Nat) :
    (g.derive host applications state).result ≠ .error (.stale rule application) := by
  refine (verdict grown built.consistent resolved state).ne_stale ?_ rule application
  have each := forall₂_of_mapM resolved
  have valid := fun r hr => valid_of_resolveAll grown.sound resolved r hr
  rintro r hr ⟨edge, hedge, side, blocked⟩
  have anchored := ((valid r hr).1.rule.added edge hedge).2 side
  cases endpoint : edge.ends.get side with
  | created k =>
    rw [endpoint] at blocked
    exact blocked
  | matched p =>
    rw [endpoint] at blocked anchored
    obtain ⟨v, bound, s, hs, ⟨y, _⟩, hy, cut, rfl⟩ := blocked
    obtain ⟨x, there, kept⟩ := anchored.1
    obtain ⟨i, placeR⟩ := List.getElem?_of_mem hr
    obtain ⟨j, placeS⟩ := List.getElem?_of_mem hs
    obtain ⟨a, placeA, resolvesA⟩ := (forall₂_getElem? each i).2 r placeR
    obtain ⟨b, placeB, resolvesB⟩ := (forall₂_getElem? each j).2 s placeS
    by_cases same : i = j
    · -- One application does not both keep and cut a vertex.
      subst same
      cases placeR.symm.trans placeS
      have nodup := distinct a (List.mem_of_getElem? placeA)
      rw [← Application.vertices_of_resolve resolvesA] at nodup
      obtain ⟨q, hq⟩ := List.mem_iff_getElem?.mp hy
      obtain ⟨there', bound'⟩ := List.getElem?_zip_eq_some.mp hq
      obtain rfl := (List.getElem?_inj (List.getElem?_eq_some_iff.mp bound).1 nodup).mp
        (bound.trans bound'.symm)
      cases there.symm.trans there'
      exact Bool.eq_false_iff.mp kept cut
    · have conflict := Resolved.conflicts_of_vertex (valid r hr).1 (valid s hs).1 (tags r hr s hs)
        (mem_zip_of_getElem? there bound) hy kept cut
      rw [← grown.inConflict_iff (rule?_of_resolve resolvesA) (rule?_of_resolve resolvesB),
        unrecorded i j a b same placeA placeB] at conflict
      cases conflict

open Samples in
/-- Two leaves of a star are renewed at once. -/
theorem derive_ne_stale_of_not_inConflict_star :
    (single renewLeaf).inConflict ⟨0⟩ ⟨0⟩ = false ∧ ∀ rule application,
      ((single renewLeaf).derive (shaped 3 [(0, 1), (0, 2)])
        [applyAt [0, 1] [0], applyAt [0, 2] [1]] ()).result ≠ .error (.stale rule application) := by
  obtain ⟨batch, resolved, tags⟩ : ∃ batch,
      (single renewLeaf).resolveAll (shaped 3 [(0, 1), (0, 2)])
        [applyAt [0, 1] [0], applyAt [0, 2] [1]] = .ok batch ∧
      ∀ r ∈ batch, ∀ s ∈ batch, r.VertexTagsAgree s := exists_of_check (by decide +kernel)
  have compatible : (single renewLeaf).inConflict ⟨0⟩ ⟨0⟩ = false := by decide +kernel
  refine ⟨compatible, derive_ne_stale_of_not_inConflict (grown_single renewLeaf)
    (built_shaped 3 [(0, 1), (0, 2)]) resolved (by decide +kernel) tags ?_ ()⟩
  intro i j a b _ ha hb
  have same : ∀ app ∈ [applyAt [0, 1] [0], applyAt [0, 2] [1]], app.rule = ⟨0⟩ := by
    decide +kernel
  rw [same a (List.mem_of_getElem? ha), same b (List.mem_of_getElem? hb)]
  exact compatible

end Grammar

end GraphSplice
