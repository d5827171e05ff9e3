import GraphSplice.Proofs.Completeness
import GraphSplice.Proofs.Graph.Subdivision
import GraphSplice.Proofs.Replacement
import GraphSplice.Samples

/-!
Splitting all edges of a simple graph, time after time. Each pass finds every edge once, in one of
its two directions, and splits all of them in one batch; after `k` passes the edges have become
paths of `2 ^ k` edges.
-/

namespace GraphSplice

open Search

/-- The graph after `k` passes over the host, and the states that the callbacks leave. -/
def Grammar.deriveTimes {D : Domain} (g : Grammar D) (host : Host D) (m : D.MatchState)
    (s : D.BuildState) : Nat → Except ApplyError (Host D × D.MatchState × D.BuildState)
  | 0 => .ok (host, m, s)
  | k + 1 => do
    let (host, m, s) ← g.deriveTimes host m s k
    let report := g.deriveAll host m s
    let d ← report.result
    return (d.graph, report.state)

namespace Samples

/-! ## The rule -/

def subdivisionRule : Rule .plain where
  id := ⟨0⟩
  name := some "edge-subdivision"
  vertices := [⟨0, none, .kept⟩, ⟨0, none, .kept⟩]
  edges := [⟨0, ⟨0, 1⟩, none, .cut none⟩]
  addedVertices := [⟨0, none⟩]
  addedEdges := [⟨0, ⟨.matched 0, .created 0⟩, ⟨some 0, none⟩, none⟩,
    ⟨0, ⟨.created 0, .matched 1⟩, ⟨none, some 0⟩, none⟩]
  symmetries := [[0, 1], [1, 0]]
  accepts := none

theorem edgeSubdivision_eq :
    edgeSubdivision = .ok (Draft.empty.declareAll (.named "edge-subdivision" :: splitEdge)) := rfl

/-- The grammar of the one rule, under any settings. -/
def subdivider (settings : Settings) : Grammar .plain :=
  ((Grammar.empty settings).add
    (Draft.empty.declareAll (.named "edge-subdivision" :: splitEdge)) none).grammar

theorem grown_subdivider (settings : Settings) : (subdivider settings).Grown :=
  .add _ none (.empty settings)

theorem findAll_subdivider (settings : Settings) (host : Host .plain) :
    ((subdivider settings).findAll host ()).applications =
      (subdivisionRule.occurrences host settings.matchLimit ()).1.map (Application.mk ⟨0⟩) :=
  List.nil_append _

theorem wellFormed_subdivisionRule : subdivisionRule.WellFormed :=
  ((grown_subdivider .default).sound.rules 0 _ rfl).1

/-! ## Spans -/

/-- An edge, read from one of its ends to the other. -/
structure Span where
  ends : Ends VertexId
  edge : EdgeId

namespace Span

def occurrence (s : Span) : Occurrence := ⟨[s.ends.first, s.ends.second], [s.edge]⟩

def ofEmbedding (e : Embedding) : Span :=
  ⟨⟨⟨e.vertices.getD 0 0⟩, ⟨e.vertices.getD 1 0⟩⟩, ⟨e.edges.getD 0 0⟩⟩

/-- The rule at the edge. -/
def resolved (s : Span) : Resolved .plain := ⟨subdivisionRule, s.occurrence⟩

/-- The span has the ends of its edge. -/
def Reads (host : Host .plain) (s : Span) : Prop :=
  ∃ x, host.ends? s.edge = some x ∧ x.Joins s.ends.first s.ends.second

end Span

/-- Every edge of the host is read once. -/
structure Spans (host : Host .plain) (spans : List Span) : Prop where
  reads : ∀ s ∈ spans, s.Reads host
  edges : (spans.map Span.edge).Perm host.edgeIds

variable {host : Host .plain} {spans : List Span}

theorem unchecked_subdivisionRule : subdivisionRule.IsUnchecked := by decide

/-- An embedding of the rule is a span. -/
theorem reads_ofEmbedding {e : Embedding}
    (embeds : Embeds (subdivisionRule.terms host) subdivisionRule.pattern host.asTarget e)
    (consistent : host.Consistent) :
    e.occurrence = (Span.ofEmbedding e).occurrence ∧ (Span.ofEmbedding e).Reads host := by
  have valid := embeds.valid consistent wellFormed_subdivisionRule
  obtain ⟨u, v, vertices⟩ := List.length_eq_two.mp embeds.arity
  obtain ⟨d, edges⟩ := List.length_eq_one_iff.mp embeds.edgeArity
  obtain ⟨record, ends, found, bound, joins⟩ :=
    valid.edges 0 _ ⟨d⟩ rfl (by simp [Embedding.occurrence, edges])
  simp only [Embedding.occurrence, vertices] at bound
  cases bound
  refine ⟨?_, record.ends, ?_, ?_⟩
  · simp [Embedding.occurrence, Span.occurrence, Span.ofEmbedding, vertices, edges]
  · simp [Graph.ends?, Span.ofEmbedding, edges, found]
  · simpa [Span.ofEmbedding, vertices] using joins

/-- Two readings of the rule have one key if they read the same vertices in either direction. -/
theorem key_eq_iff {e e' : Embedding} {s s' : Span} (reads : e.occurrence = s.occurrence)
    (reads' : e'.occurrence = s'.occurrence) :
    subdivisionRule.key e = subdivisionRule.key e' ↔ s.ends.Joins s'.ends.first s'.ends.second := by
  have vertices {e : Embedding} {s : Span} (reads : e.occurrence = s.occurrence) :
      e.vertices = [s.ends.first.slot, s.ends.second.slot] := by
    have slots := congrArg (fun o => o.vertices.map Handle.slot) reads
    simpa [Embedding.occurrence, Span.occurrence, Function.comp_def] using slots
  rw [wellFormed_subdivisionRule.key_eq_iff (by rw [vertices reads]; rfl)
    (by rw [vertices reads']; rfl), vertices reads, vertices reads']
  obtain ⟨⟨⟨a⟩, ⟨b⟩⟩, -⟩ := s
  obtain ⟨⟨⟨c⟩, ⟨d⟩⟩, -⟩ := s'
  simp [subdivisionRule, Symmetry.permute, Ends.Joins]

theorem occurs_of_ends (consistent : host.Consistent) (simple : host.Simple) {d : EdgeId}
    {x : Ends VertexId} (found : host.ends? d = some x) :
    subdivisionRule.Occurs host [x.first, x.second] := by
  obtain ⟨record, there, rfl⟩ := Option.map_eq_some_iff.mp found
  obtain ⟨first, second⟩ := consistent.ends d record there
  have apart := simple.ne_of_joins found record.ends.joins_self
  have pair {i j : Nat} {a b : VertexId} (hi : [record.ends.first, record.ends.second][i]? = some a)
      (hj : [record.ends.first, record.ends.second][j]? = some b) (different : i ≠ j) :
      subdivisionRule.Between i j 0 ∧ record.ends.Joins a b := by
    have below : i < 2 := (List.getElem?_eq_some_iff.mp hi).1
    have below' : j < 2 := (List.getElem?_eq_some_iff.mp hj).1
    obtain ⟨rfl, rfl⟩ | ⟨rfl, rfl⟩ : (i = 0 ∧ j = 1) ∨ (i = 1 ∧ j = 0) := by omega
    · cases hi
      cases hj
      exact ⟨⟨_, rfl, .inl rfl⟩, .inl rfl⟩
    · cases hi
      cases hj
      exact ⟨⟨_, rfl, .inr rfl⟩, .inr rfl⟩
  have single {i j k : Nat} (between : subdivisionRule.Between i j k) : k = 0 := by
    obtain ⟨edge, there, -⟩ := between
    have inside := (List.getElem?_eq_some_iff.mp there).1
    exact Nat.lt_one_iff.mp inside
  constructor
  case arity => rfl
  case nodup => simpa using apart
  case contained =>
    simp only [List.forall_mem_cons, List.not_mem_nil, false_implies, implies_true, and_true]
    exact ⟨first, second⟩
  case passes => exact fun i v _ => unchecked_subdivisionRule.passesVertex i v
  case induced => exact fun i j a b hi hj different none => absurd (pair hi hj different).1 (none 0)
  case assignable =>
    intro i j a b hi hj different
    refine ⟨fun _ => d, fun k hk l hl _ => (single hk).trans (single hl).symm, fun k _ => ?_⟩
    exact ⟨unchecked_subdivisionRule.plain.passesEdge k d, record, there, (pair hi hj different).2⟩

/-- A search finds every edge of a simple graph once. -/
theorem exists_spans (consistent : host.Consistent) (simple : host.Simple) (s : Unit) :
    ∃ spans, (subdivisionRule.occurrences host none s).1 = spans.map Span.occurrence ∧
      Spans host spans := by
  obtain ⟨taken, found, distinct, sound, complete⟩ := Rule.exists_reaps wellFormed_subdivisionRule
    consistent unchecked_subdivisionRule.oblivious s
  have read (e : Embedding) (he : e ∈ taken) := reads_ofEmbedding (sound e he).1 consistent
  refine ⟨taken.map Span.ofEmbedding, ?_, ?_, ?_⟩
  · rw [found, List.map_map]
    exact List.map_congr_left fun e he => (read e he).1
  · intro s hs
    obtain ⟨e, he, rfl⟩ := List.mem_map.mp hs
    exact (read e he).2
  · rw [List.map_map]
    refine (List.perm_ext_iff_of_nodup ?_ host.nodup_edgeIds).mpr fun d => ?_
    · -- Spans of one edge read the same two vertices, and have the same key.
      refine List.pairwise_map.mpr ((List.pairwise_map.mp distinct).imp_of_mem ?_)
      intro e e' he he' different same
      obtain ⟨here, x, there, joins⟩ := read e he
      obtain ⟨here', x', there', joins'⟩ := read e' he'
      rw [Function.comp_apply, Function.comp_apply] at same
      rw [same, there'] at there
      cases there
      exact different ((key_eq_iff here here').mpr (joins.symm.trans joins'))
    · rw [Graph.mem_edgeIds, ← Graph.ends?_isSome_iff, List.mem_map]
      constructor
      · rintro ⟨e, he, rfl⟩
        obtain ⟨-, x, there, -⟩ := read e he
        exact ⟨x, there⟩
      · rintro ⟨x, there⟩
        obtain ⟨e, embeds, vertices⟩ := exists_embeds consistent wellFormed_subdivisionRule
          (occurs_of_ends consistent simple there)
        obtain ⟨e', he', same⟩ := complete e embeds (unchecked_subdivisionRule.accepts _)
        obtain ⟨here, y, there', joins⟩ := read e' he'
        obtain ⟨whole, -⟩ := reads_ofEmbedding embeds consistent
        have parallel := (key_eq_iff here whole).mp same
        rw [whole] at vertices
        simp only [Span.occurrence, List.cons.injEq, and_true] at vertices
        obtain ⟨first, second⟩ := vertices
        rw [first, second] at parallel
        exact ⟨e', he', simple.eq_of_joins consistent there' there joins parallel.symm⟩

/-! ## One pass -/

namespace Span

variable {s : Span}

theorem cutsEdge_resolved_iff {e : EdgeId} : CutsEdge [s.resolved] e ↔ e = s.edge := by
  rw [cutsEdge_singleton_iff]
  constructor
  · rintro ⟨x, hx, -, rfl⟩
    exact List.mem_singleton.mp (List.of_mem_zip hx).2
  · rintro rfl
    exact ⟨_, List.mem_cons_self, rfl, rfl⟩

theorem addedEnds_resolved (s : Span) (n : Nat) :
    s.resolved.addedEnds n = [⟨s.ends.first, ⟨n⟩⟩, ⟨⟨n⟩, s.ends.second⟩] := rfl

theorem valid_resolved (reads : s.Reads host) (consistent : host.Consistent) :
    s.resolved.Valid host := by
  obtain ⟨x, found, joins⟩ := reads
  obtain ⟨record, there, rfl⟩ := Option.map_eq_some_iff.mp found
  obtain ⟨first, second⟩ := consistent.ends _ _ there
  constructor
  case rule => exact wellFormed_subdivisionRule
  case arity => rfl
  case vertices =>
    intro v hv
    have ends : v = s.ends.first ∨ v = s.ends.second := by simpa [resolved, occurrence] using hv
    have touches : record.ends.Touches v := by
      rcases ends with rfl | rfl
      · exact joins.touches.1
      · exact joins.touches.2
    rcases touches with rfl | rfl
    · exact first
    · exact second
  case edgeArity => rfl
  case edges =>
    intro j edge e hj he
    have below : j < 1 := (List.getElem?_eq_some_iff.mp hj).1
    obtain rfl := Nat.lt_one_iff.mp below
    cases hj
    cases he
    exact ⟨record, s.ends, there, rfl, joins⟩

end Span

theorem not_cutsVertex_resolved (spans : List Span) :
    ∀ v, ¬ CutsVertex (spans.map Span.resolved) v := by
  refine not_cutsVertex_of_kept fun r hr => ?_
  obtain ⟨s, -, rfl⟩ := List.mem_map.mp hr
  exact (by decide : ∀ x ∈ subdivisionRule.vertices, x.fate.isCut = false)

namespace Spans

variable (covered : Spans host spans) (consistent : host.Consistent) (simple : host.Simple)

include covered

theorem length_eq : spans.length = host.size := by
  have same := covered.edges.length_eq
  simpa [Graph.edgeIds] using same

include consistent

theorem resolveAll_eq (settings : Settings) : (subdivider settings).resolveAll host
    (spans.map fun s => ⟨⟨0⟩, s.occurrence⟩) = .ok (spans.map Span.resolved) := by
  refine mapM_of_forall₂ ?_
  rw [List.forall₂_map_left_iff, List.forall₂_map_right_iff, List.forall₂_same]
  intro s hs
  have registered : (subdivider settings).rule? ⟨0⟩ = some subdivisionRule := rfl
  have valid := Span.valid_resolved (covered.reads s hs) consistent
  exact (Grammar.resolve_eq ⟨⟨0⟩, s.occurrence⟩ registered).trans (Rule.resolve_of_valid valid)

include simple

theorem separate : Separate host (spans.map Span.resolved) where
  valid r hr := by
    obtain ⟨s, hs, rfl⟩ := List.mem_map.mp hr
    exact Span.valid_resolved (covered.reads s hs) consistent
  distinct r hr := by
    obtain ⟨s, hs, rfl⟩ := List.mem_map.mp hr
    obtain ⟨x, found, joins⟩ := covered.reads s hs
    have apart := simple.ne_of_joins found joins
    exact ⟨by simpa [Span.resolved, Span.occurrence] using apart, List.nodup_singleton _⟩
  splices r hr := by
    obtain ⟨s, hs, rfl⟩ := List.mem_map.mp hr
    exact (by decide : subdivisionRule.SplicesApart)
  spares := by
    have spares {s t : Span} (ht : t ∈ spans) (different : t.edge ≠ s.edge) :
        s.resolved.Spares host t.resolved := by
      have uncut := not_cutsVertex_resolved [s]
      refine ⟨fun v _ => uncut v, fun e he => ⟨fun cut => ?_, ?_⟩⟩
      · rw [List.mem_singleton.mp he, Span.cutsEdge_resolved_iff] at cut
        exact different cut
      · obtain ⟨x, found, -⟩ := covered.reads t ht
        obtain ⟨record, there, -⟩ := Option.map_eq_some_iff.mp found
        rw [List.mem_singleton.mp he]
        exact ⟨record, there, uncut _, uncut _⟩
    have apart := List.pairwise_map.mp (covered.edges.nodup_iff.mpr host.nodup_edgeIds)
    refine List.pairwise_map.mpr (apart.imp_of_mem fun hs ht different => ?_)
    exact ⟨spares ht different.symm, spares hs different⟩

end Spans

/-! ## The halves of the edges -/

theorem getElem?_addedEndsFrom {i : Nat} {s : Span} (found : spans[i]? = some s) (n : Nat) :
    (addedEndsFrom n (spans.map Span.resolved))[2 * i]? = some ⟨s.ends.first, ⟨n + i⟩⟩ ∧
      (addedEndsFrom n (spans.map Span.resolved))[2 * i + 1]? = some ⟨⟨n + i⟩, s.ends.second⟩ := by
  induction spans generalizing i n with
  | nil => cases found
  | cons s' spans ih =>
    rw [List.map_cons, addedEndsFrom, Span.addedEnds_resolved]
    cases i with
    | zero =>
      cases found
      exact ⟨rfl, rfl⟩
    | succ i =>
      have later := ih found (n + 1)
      rw [Nat.add_right_comm n 1 i] at later
      exact later

/-- The place of an edge in the order in which the edges are read. -/
def place (spans : List Span) (e : EdgeId) : Nat := (spans.map Span.edge).idxOf e

/-- The vertices along the two halves of an edge, where the added ones are numbered from `n`. -/
def halfway (n : Nat) (spans : List Span) (e : EdgeId) : Nat → VertexId
  | 0 => (spans[place spans e]?).elim .unused (·.ends.first)
  | 1 => ⟨n + place spans e⟩
  | _ => (spans[place spans e]?).elim .unused (·.ends.second)

def half (spans : List Span) (e : EdgeId) (i : Nat) : EdgeId := ⟨2 * place spans e + i⟩

namespace Spans

variable (covered : Spans host spans) (consistent : host.Consistent)

include covered

theorem read_at {e : EdgeId} (he : e.slot < host.size) :
    ∃ s, spans[place spans e]? = some s ∧ s.edge = e := by
  have member : e ∈ spans.map Span.edge := covered.edges.mem_iff.mpr (Graph.mem_edgeIds.mpr he)
  have found := getElem?_idxOf member
  rw [List.getElem?_map] at found
  exact Option.map_eq_some_iff.mp found

theorem place_lt {e : EdgeId} (he : e.slot < host.size) : place spans e < host.size := by
  obtain ⟨s, found, -⟩ := covered.read_at he
  rw [← covered.length_eq]
  exact (List.getElem?_eq_some_iff.mp found).1

theorem place_inj {e e' : EdgeId} (he : e.slot < host.size) (he' : e'.slot < host.size)
    (same : place spans e = place spans e') : e = e' := by
  obtain ⟨s, found, rfl⟩ := covered.read_at he
  obtain ⟨s', found', rfl⟩ := covered.read_at he'
  rw [same, found'] at found
  cases found
  rfl

theorem exists_place {i : Nat} (hi : i < host.size) :
    ∃ e : EdgeId, e.slot < host.size ∧ place spans e = i := by
  rw [← covered.length_eq] at hi
  have member : spans[i].edge ∈ spans.map Span.edge := List.mem_map_of_mem (List.getElem_mem hi)
  refine ⟨spans[i].edge, Graph.mem_edgeIds.mp (covered.edges.mem_iff.mp member), ?_⟩
  refine idxOf_of_getElem? (covered.edges.nodup_iff.mpr host.nodup_edgeIds) ?_
  rw [List.getElem?_map, List.getElem?_eq_getElem hi]
  rfl

theorem bijOn_halfway : Set.BijOn (fun x : EdgeId × Nat => halfway host.order spans x.1 x.2)
    ({e | e.slot < host.size} ×ˢ Set.Ioo 0 2)
    {v | host.order ≤ v.slot ∧ v.slot < host.order + host.size} := by
  have middle {i : Nat} (hi : i ∈ Set.Ioo 0 2) : i = 1 := by
    rw [Set.mem_Ioo] at hi
    omega
  refine ⟨?_, ?_, ?_⟩
  · rintro ⟨e, i⟩ ⟨he, hi⟩
    obtain rfl := middle hi
    exact ⟨Nat.le_add_right _ _, Nat.add_lt_add_left (covered.place_lt he) _⟩
  · rintro ⟨e, i⟩ ⟨he, hi⟩ ⟨e', j⟩ ⟨he', hj⟩ same
    obtain rfl := middle hi
    obtain rfl := middle hj
    obtain rfl : e = e' := covered.place_inj he he' (Nat.add_left_cancel (Handle.mk.inj same))
    rfl
  · rintro v ⟨low, high⟩
    obtain ⟨i, add⟩ := Nat.exists_eq_add_of_le low
    obtain ⟨e, he, rfl⟩ := covered.exists_place (i := i) (by omega)
    exact ⟨(e, 1), ⟨he, Nat.zero_lt_one, Nat.one_lt_two⟩, Handle.ext_slot add.symm⟩

theorem bijOn_half : Set.BijOn (fun x : EdgeId × Nat => half spans x.1 x.2)
    ({e | e.slot < host.size} ×ˢ Set.Iio 2) {d | d.slot < 2 * host.size} := by
  refine ⟨?_, ?_, ?_⟩
  · rintro ⟨e, i⟩ ⟨he, hi⟩
    have below : place spans e < host.size := covered.place_lt he
    change i < 2 at hi
    change 2 * place spans e + i < 2 * host.size
    omega
  · rintro ⟨e, i⟩ ⟨he, hi⟩ ⟨e', j⟩ ⟨he', hj⟩ same
    have slots : 2 * place spans e + i = 2 * place spans e' + j := Handle.mk.inj same
    change i < 2 at hi
    change j < 2 at hj
    have digits : place spans e = place spans e' ∧ i = j := by omega
    obtain rfl : e = e' := covered.place_inj he he' digits.1
    rw [digits.2]
  · intro d hd
    change d.slot < 2 * host.size at hd
    obtain ⟨e, he, same⟩ := covered.exists_place (i := d.slot / 2) (by omega)
    refine ⟨(e, d.slot % 2), ⟨he, Nat.mod_lt _ Nat.two_pos⟩, Handle.ext_slot ?_⟩
    change 2 * place spans e + d.slot % 2 = d.slot
    omega

include consistent

/-- Where all edges are split the halves are the only edges. -/
theorem ends_eq {d : Derivation .plain} (replaces : Replaces host (spans.map Span.resolved) d) :
    d.graph.ends = addedEndsFrom host.order (spans.map Span.resolved) := by
  obtain ⟨rest, before, after⟩ := replaces.ends
  have valid : ∀ r ∈ spans.map Span.resolved, r.Valid host := by
    intro r hr
    obtain ⟨s, hs, rfl⟩ := List.mem_map.mp hr
    exact Span.valid_resolved (covered.reads s hs) consistent
  have cut : ((spans.map Span.resolved).flatMap (Resolved.cutEnds host)).length = host.size := by
    rw [length_flatMap_cutEnds valid, ← covered.length_eq, List.flatMap_map, List.length_flatMap]
    simp [Resolved.cutEdges, Span.resolved, Span.occurrence, subdivisionRule, Fate.isCut]
  have none := before.length_eq
  rw [List.length_append, cut, Graph.length_ends, Nat.right_eq_add] at none
  rw [after, List.length_eq_zero_iff.mp none, List.nil_append]

theorem subdivides {d : Derivation .plain}
    (replaces : Replaces host (spans.map Span.resolved) d) :
    Graph.Subdivides 2 host d.graph (halfway host.order spans) (half spans) := by
  have ends := covered.ends_eq consistent replaces
  have order : d.graph.order = host.order + host.size := by
    rw [replaces.order, ← covered.length_eq, addedOrder, List.flatMap_map, List.length_flatMap]
    simp [Span.resolved, subdivisionRule]
  have size : d.graph.size = 2 * host.size := by
    rw [← Graph.length_ends, ends, length_addedEndsFrom, ← covered.length_eq, List.flatMap_map,
      List.length_flatMap]
    simp [Span.resolved, subdivisionRule, Nat.mul_comm]
  constructor
  case vertex => exact replaces.vertex
  case ends =>
    intro e x found
    obtain ⟨s, there, rfl⟩ := covered.read_at (Graph.ends?_isSome_iff.mp ⟨x, found⟩)
    obtain ⟨x', found', joins⟩ := covered.reads s (List.mem_of_getElem? there)
    cases found.symm.trans found'
    simpa [halfway, there] using joins
  case joins =>
    intro e i he hi
    obtain ⟨s, there, rfl⟩ := covered.read_at he
    obtain ⟨first, second⟩ := getElem?_addedEndsFrom there host.order
    rw [← ends] at first second
    obtain rfl | rfl : i = 0 ∨ i = 1 := by omega
    · refine ⟨_, (Graph.ends?_eq_getElem? _ _).trans first, ?_⟩
      simp only [halfway, there, Option.elim_some]
      exact Ends.joins_self _
    · refine ⟨_, (Graph.ends?_eq_getElem? _ _).trans second, ?_⟩
      simp only [halfway, there, Option.elim_some]
      exact Ends.joins_self _
  case stops =>
    have new : {v | d.graph.Contains v ∧ ¬ host.Contains v} =
        {v | host.order ≤ v.slot ∧ v.slot < host.order + host.size} := by
      ext v
      rw [← order]
      exact and_comm.trans (and_congr_left fun _ => Nat.not_lt)
    rw [new]
    exact covered.bijOn_halfway
  case pieces =>
    rw [size]
    exact covered.bijOn_half

end Spans

/-- One pass over a simple graph splits every edge. -/
theorem exists_pass (settings : Settings) (unlimited : settings.matchLimit = none)
    (consistent : host.Consistent) (simple : host.Simple) :
    ∃ d, ((subdivider settings).deriveAll host () ()).result = .ok d ∧ d.graph.Consistent ∧
      ∃ stop piece, Graph.Subdivides 2 host d.graph stop piece := by
  obtain ⟨spans, found, covered⟩ := exists_spans consistent simple ()
  have silent : ∀ r ∈ spans.map Span.resolved, r.rule.IsSilent := by
    intro r hr
    obtain ⟨s, -, rfl⟩ := List.mem_map.mp hr
    exact (by decide : subdivisionRule.IsSilent)
  obtain ⟨a, -, consistent', replaces, derived, -⟩ :=
    Grammar.exists_replacement (grown_subdivider settings) consistent
      (covered.resolveAll_eq consistent settings) (covered.separate consistent simple)
      (not_cutsVertex_resolved spans) ()
  rw [Creation.run_of_isSilent silent] at derived
  have seen : ((subdivider settings).findAll host ()).applications =
      spans.map fun s => ⟨⟨0⟩, s.occurrence⟩ := by
    rw [findAll_subdivider, unlimited, found, List.map_map]
    rfl
  refine ⟨_, ?_, consistent', _, _, covered.subdivides consistent replaces⟩
  unfold Grammar.deriveAll
  dsimp only
  rw [seen]
  exact derived

/-! ## Many passes -/

/-- After `k` passes the edges of a simple graph are paths of `2 ^ k` edges. -/
theorem exists_passes (settings : Settings) (unlimited : settings.matchLimit = none)
    (consistent : host.Consistent) (simple : host.Simple) (k : Nat) :
    ∃ result : Host .plain, (subdivider settings).deriveTimes host () () k = .ok (result, (), ()) ∧
      result.Consistent ∧ ∃ stop piece, Graph.Subdivides (2 ^ k) host result stop piece := by
  induction k with
  | zero => exact ⟨host, rfl, consistent, _, _, .self host⟩
  | succ k ih =>
    obtain ⟨middle, derived, consistent', stop, piece, sub⟩ := ih
    obtain ⟨d, last, consistent'', stop', piece', halves⟩ := exists_pass settings unlimited
      consistent' (sub.simple_of_simple consistent consistent' simple)
    refine ⟨d.graph, ?_, consistent'', ?_⟩
    · rw [Grammar.deriveTimes, derived]
      dsimp only [bind, Except.bind]
      rw [last]
      rfl
    · rw [Nat.pow_succ]
      exact sub.exists_trans halves Nat.two_pos

end Samples

namespace Grammar

open Samples

/-- On a simple graph, passes of the rule that splits an edge succeed as often as one likes. After
`k` of them the graph is simple, the old vertices are as they were and have their old degrees, all
new ones have degree two, and every old edge has become a path of `2 ^ k` edges between its ends. -/
theorem deriveTimes_subdivides (settings : Settings) (unlimited : settings.matchLimit = none)
    {host : Host .plain} (built : host.Built) (simple : host.Simple) (k : Nat) :
    ∃ draft, edgeSubdivision = .ok draft ∧
      let registered := (Grammar.empty settings).add draft none
      registered.result = .ok ⟨0⟩ ∧
      ∃ result : Host .plain, registered.grammar.deriveTimes host () () k = .ok (result, (), ()) ∧
        result.Simple ∧
        result.order = host.order + (2 ^ k - 1) * host.size ∧
        result.size = 2 ^ k * host.size ∧
        (∀ v, host.Contains v →
          result.vertex? v = host.vertex? v ∧ result.degree v = host.degree v) ∧
        (∀ v, result.Contains v → ¬ host.Contains v → result.degree v = 2) ∧
        ∃ stop piece, Graph.Subdivides (2 ^ k) host result stop piece ∧
          ∀ e, e.slot < host.size → Set.InjOn (stop e) {i | i ≤ 2 ^ k} := by
  refine ⟨_, edgeSubdivision_eq, rfl, ?_⟩
  have consistent := built.consistent
  obtain ⟨result, derived, consistent', stop, piece, sub⟩ :=
    exists_passes settings unlimited consistent simple k
  refine ⟨result, derived, sub.simple_of_simple consistent consistent' simple, ?_, ?_, ?_, ?_,
    stop, piece, sub, fun e he => sub.stop_injOn consistent simple he⟩
  · rw [sub.order_eq, Nat.mul_comm]
  · rw [sub.size_eq, Nat.mul_comm]
  · exact fun v old =>
      ⟨sub.vertex v old, sub.degree_old (Nat.two_pow_pos k) consistent consistent' simple old⟩
  · exact fun v inside new => sub.degree_new consistent consistent' simple inside new

/-- Three passes over a triangle lead to a cycle of twenty-four vertices. -/
theorem deriveTimes_subdivides_triangle :
    (shaped 3 [(0, 1), (1, 2), (2, 0)]).Simple ∧ ∃ draft, edgeSubdivision = .ok draft ∧
      ∃ result : Host .plain, ((Grammar.empty .default).add draft none).grammar.deriveTimes
          (shaped 3 [(0, 1), (1, 2), (2, 0)]) () () 3 = .ok (result, (), ()) ∧
        result.order = 24 ∧ result.size = 24 ∧ ∀ v, result.Contains v → result.degree v = 2 := by
  have simple : (shaped 3 [(0, 1), (1, 2), (2, 0)]).Simple :=
    .of_ends (built_shaped _ _).consistent (by decide) (by decide)
  refine ⟨simple, ?_⟩
  obtain ⟨draft, drafted, -, result, derived, -, order, size, old, new, -⟩ :=
    deriveTimes_subdivides .default rfl (built_shaped 3 [(0, 1), (1, 2), (2, 0)]) simple 3
  refine ⟨draft, drafted, result, derived, order, size, fun v inside => ?_⟩
  by_cases first : (shaped 3 [(0, 1), (1, 2), (2, 0)]).Contains v
  · rw [(old v first).2]
    have degrees : ∀ v ∈ (shaped 3 [(0, 1), (1, 2), (2, 0)]).vertexIds,
        (shaped 3 [(0, 1), (1, 2), (2, 0)]).degree v = 2 := by decide
    exact degrees v (Graph.mem_vertexIds.mpr first)
  · exact new v inside first

end Grammar

end GraphSplice
