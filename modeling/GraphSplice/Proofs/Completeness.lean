import GraphSplice.Grammar
import GraphSplice.Proofs.Occurrences
import GraphSplice.Proofs.Rule.Symmetries
import GraphSplice.Proofs.Samples

/-!
The search for the occurrences of a rule is sound and complete, and finds each of them once. Where
the answers of the predicates do not depend on the state of the caller and the number of matches is
not limited, the occurrences found are accepted ones, and of those that differ by a symmetry of the
rule exactly one is found.
-/

namespace GraphSplice

open Search

variable {D : Domain} {host : Host D} {r : Rule D}

namespace Rule

/-- What does not depend on the state is answered in any state as in all. -/
theorem answers_iff {σ : Type} {ask : σ → Bool × σ} (same : ∀ s s', (ask s).1 = (ask s').1)
    (s : σ) : (ask s).1 = true ↔ ∀ s', (ask s').1 = true :=
  ⟨fun yes s' => (same s' s).trans yes, fun yes => yes s⟩

theorem checkVertexAt_iff (oblivious : r.Oblivious) {i t : Nat} {s : D.MatchState} :
    (r.checkVertexAt ⟨host, r.id⟩ i t s).1 = true ↔ r.PassesVertex host i ⟨t⟩ := by
  unfold checkVertexAt PassesVertex
  cases found : r.vertices[i]? with
  | none => simp
  | some vertex =>
    cases asked : vertex.check with
    | none => simp [asked]
    | some check =>
      have same := oblivious.vertices vertex (List.mem_of_getElem? found) check asked
      simpa [asked] using answers_iff (same ⟨host, r.id⟩ ⟨t⟩) s

theorem checkEdgeAt_iff (oblivious : r.Oblivious) {k t : Nat} {s : D.MatchState} :
    (r.checkEdgeAt ⟨host, r.id⟩ k t s).1 = true ↔ r.PassesEdge host k ⟨t⟩ := by
  unfold checkEdgeAt PassesEdge
  cases found : r.edges[k]? with
  | none => simp
  | some edge =>
    cases asked : edge.check with
    | none => simp [asked]
    | some check =>
      have same := oblivious.edges edge (List.mem_of_getElem? found) check asked
      simpa [asked] using answers_iff (same ⟨host, r.id⟩ ⟨t⟩) s

theorem checkOccurrence_iff (oblivious : r.Oblivious) {o : Occurrence} {s : D.MatchState} :
    (r.checkOccurrence ⟨host, r.id⟩ o s).1 = true ↔ r.Accepts host o := by
  unfold checkOccurrence Accepts
  cases asked : r.accepts with
  | none => simp
  | some check =>
    simpa using answers_iff (oblivious.occurrences check asked ⟨host, r.id⟩ o) s

theorem keeps_hostGuide_terms (oblivious : r.Oblivious) (limit : Option Nat)
    (I : Array Occurrence → Prop) :
    Keeps (r.hostGuide ⟨host, r.id⟩ limit) (r.terms host) True fun h => I h.found :=
  ⟨fun _ _ _ hs =>
      ⟨⟨(checkVertexAt_iff oblivious).mp, fun _ => (checkVertexAt_iff oblivious).mpr⟩, hs⟩,
    fun _ _ _ hs =>
      ⟨⟨(checkEdgeAt_iff oblivious).mp, fun _ => (checkEdgeAt_iff oblivious).mpr⟩, hs⟩⟩

/-- Under a limit, too, what is found is an occurrence. -/
theorem occurs_of_mem_occurrences (wellFormed : r.WellFormed) (consistent : host.Consistent)
    (oblivious : r.Oblivious) {limit : Option Nat} {s : D.MatchState} {o : Occurrence}
    (h : o ∈ (r.occurrences host limit s).1) :
    r.Occurs host o.vertices ∧ r.Binding host o.vertices o.edges ∧ Resolved.Valid host ⟨r, o⟩ := by
  obtain ⟨e, embeds, rfl⟩ := exists_embeds_of_mem_occurrences wellFormed consistent
    (keeps_hostGuide_terms oblivious limit) h
  exact ⟨embeds.occurs consistent wellFormed, embeds.binding consistent wellFormed,
    embeds.valid consistent wellFormed⟩

def key (r : Rule D) (e : Embedding) : List Nat := Symmetry.canonicalKey r.symmetries e.vertices

/-- After the embeddings `es` were visited, the occurrences of those in `taken` have been found. -/
structure Reaps (r : Rule D) (host : Host D) (es : List Embedding) (h : Harvest D)
    (taken : List Embedding) : Prop where
  part : taken.Sublist es
  found : h.found.toList = taken.map (·.occurrence)
  accepted : ∀ e ∈ taken, r.Accepts host e.occurrence
  all : ∀ e ∈ es, r.Accepts host e.occurrence → ∃ e' ∈ taken, r.key e' = r.key e
  keys : r.isSymmetric = true → ∀ key, key ∈ h.keys ↔ ∃ e ∈ taken, r.key e = key
  distinct : r.isSymmetric = true → (taken.map r.key).Nodup

namespace Reaps

variable {es taken : List Embedding} {h : Harvest D} (reaps : r.Reaps host es h taken)
  {e : Embedding}

include reaps

/-- An embedding that is refused, or that differs by a symmetry from one taken before. -/
theorem skip (known : r.Accepts host e.occurrence → ∃ e' ∈ taken, r.key e' = r.key e)
    (s : D.MatchState) : r.Reaps host (es ++ [e]) { h with state := s } taken where
  part := reaps.part.trans (List.sublist_append_left es [e])
  found := reaps.found
  accepted := reaps.accepted
  all e' he' accepted := by
    rcases List.mem_append.mp he' with before | last
    · exact reaps.all e' before accepted
    · obtain rfl := List.mem_singleton.mp last
      exact known accepted
  keys := reaps.keys
  distinct := reaps.distinct

theorem push (accepted : r.Accepts host e.occurrence)
    (new : r.isSymmetric = true → r.key e ∉ h.keys) (s : D.MatchState) :
    r.Reaps host (es ++ [e])
      ⟨s, if r.isSymmetric then r.key e :: h.keys else h.keys, h.found.push e.occurrence⟩
      (taken ++ [e]) where
  part := reaps.part.append_right [e]
  found := by simp [reaps.found]
  accepted e' he' := by
    rcases List.mem_append.mp he' with before | last
    · exact reaps.accepted e' before
    · obtain rfl := List.mem_singleton.mp last
      exact accepted
  all e' he' accepted' := by
    rcases List.mem_append.mp he' with before | last
    · obtain ⟨e'', he'', same⟩ := reaps.all e' before accepted'
      exact ⟨e'', List.mem_append_left _ he'', same⟩
    · obtain rfl := List.mem_singleton.mp last
      exact ⟨e', List.mem_append_right _ last, rfl⟩
  keys symmetric key := by
    simp only [symmetric, if_true, List.mem_cons (a := key), reaps.keys symmetric, List.mem_append,
      List.mem_singleton]
    constructor
    · rintro (rfl | ⟨e', he', rfl⟩)
      · exact ⟨e, .inr rfl, rfl⟩
      · exact ⟨e', .inl he', rfl⟩
    · rintro ⟨e', before | rfl, rfl⟩
      · exact .inr ⟨e', before, rfl⟩
      · exact .inl rfl
  distinct symmetric := by
    rw [List.map_append, List.map_singleton, ← List.concat_eq_append, List.nodup_concat]
    refine ⟨fun member => new symmetric ?_, reaps.distinct symmetric⟩
    obtain ⟨e', he', same⟩ := List.mem_map.mp member
    exact (reaps.keys symmetric _).mpr ⟨e', he', same⟩

theorem take (oblivious : r.Oblivious) :
    (r.takeEmbedding ⟨host, r.id⟩ none e h).1 = .more ∧
      ∃ taken', r.Reaps host (es ++ [e]) (r.takeEmbedding ⟨host, r.id⟩ none e h).2 taken' := by
  have answer : (r.checkOccurrence ⟨host, r.id⟩
      ⟨e.vertices.map Handle.mk, e.edges.map Handle.mk⟩ h.state).1 = true ↔
      r.Accepts host e.occurrence := checkOccurrence_iff oblivious
  unfold takeEmbedding
  dsimp only
  split
  · next s asked =>
    rw [asked] at answer
    exact ⟨rfl, taken, reaps.skip (fun accepted => absurd (answer.mpr accepted) nofun) s⟩
  · next s asked =>
    rw [asked] at answer
    split
    · next known =>
      exact ⟨rfl, taken, reaps.skip (fun _ => (reaps.keys known.1 _).mp known.2) s⟩
    · next unknown =>
      exact ⟨rfl, taken ++ [e], reaps.push (answer.mp rfl) (fun symmetric member =>
        unknown ⟨symmetric, member⟩) s⟩

end Reaps

theorem WellFormed.key_eq_iff (wellFormed : r.WellFormed) {e e' : Embedding}
    (arity : e.vertices.length = r.vertices.length)
    (arity' : e'.vertices.length = r.vertices.length) :
    r.key e = r.key e' ↔ ∃ sigma ∈ r.symmetries, e.vertices = Symmetry.permute sigma e'.vertices := by
  unfold key
  rw [wellFormed.symmetries]
  exact Symmetry.Sketch.canonicalKey_eq_iff (arity.trans (List.length_map _).symm)
    (arity'.trans (List.length_map _).symm)

/-- Without a symmetry but the identity, the key tells the vertices. -/
theorem WellFormed.vertices_eq_of_key (wellFormed : r.WellFormed) (asymmetric : r.isSymmetric ≠ true)
    {e e' : Embedding} (arity : e.vertices.length = r.vertices.length)
    (arity' : e'.vertices.length = r.vertices.length) (same : r.key e = r.key e') :
    e.vertices = e'.vertices := by
  obtain ⟨sigma, member, turned⟩ := (wellFormed.key_eq_iff arity arity').mp same
  have few : r.symmetries.length ≤ 1 := by simpa [isSymmetric] using asymmetric
  have identity : List.range r.vertices.length ∈ r.symmetries := by
    rw [wellFormed.symmetries]
    simpa [sketch] using Symmetry.Sketch.range_mem_symmetries
      (sketch r.vertices r.edges r.addedVertices r.addedEdges)
  obtain ⟨only, single⟩ := List.length_eq_one_iff.mp
    (few.antisymm (List.length_pos_of_mem identity))
  rw [single, List.mem_singleton] at member identity
  rw [turned, member, ← identity, Symmetry.permute_range arity']

theorem exists_reaps (wellFormed : r.WellFormed) (consistent : host.Consistent)
    (oblivious : r.Oblivious) (s : D.MatchState) : ∃ taken : List Embedding,
      (r.occurrences host none s).1 = taken.map (·.occurrence) ∧ (taken.map r.key).Nodup ∧
      (∀ e ∈ taken, Embeds (r.terms host) r.pattern host.asTarget e ∧
        r.Accepts host e.occurrence) ∧
      ∀ e, Embeds (r.terms host) r.pattern host.asTarget e → r.Accepts host e.occurrence →
        ∃ e' ∈ taken, r.key e' = r.key e := by
  have keeps (es : List Embedding) : Keeps (r.hostGuide ⟨host, r.id⟩ none) (r.terms host) True
      fun h => ∃ taken, r.Reaps host es h taken := by
    constructor
    · rintro i t h ⟨taken, reaps⟩
      exact ⟨⟨(checkVertexAt_iff oblivious).mp, fun _ => (checkVertexAt_iff oblivious).mpr⟩,
        taken, reaps.part, reaps.found, reaps.accepted, reaps.all, reaps.keys, reaps.distinct⟩
    · rintro k t h ⟨taken, reaps⟩
      exact ⟨⟨(checkEdgeAt_iff oblivious).mp, fun _ => (checkEdgeAt_iff oblivious).mpr⟩,
        taken, reaps.part, reaps.found, reaps.accepted, reaps.all, reaps.keys, reaps.distinct⟩
  have start : r.Reaps host [] ⟨s, [], #[]⟩ [] :=
    ⟨.slnil, rfl, nofun, nofun, by simp, fun _ => .nil⟩
  obtain ⟨es, distinct, all, taken, reaps⟩ := run_sweeps trivial wellFormed.plain
    (Graph.regular_asTarget consistent) keeps
    (fun es e h _ ⟨taken, reaps⟩ => reaps.take oblivious) _ ⟨[], start⟩
  have arity (e : Embedding) (he : e ∈ taken) : e.vertices.length = r.vertices.length :=
    ((all e).mp (reaps.part.subset he)).arity
  refine ⟨taken, ?_, ?_, ?_, ?_⟩
  · unfold occurrences
    rw [if_neg nofun]
    exact reaps.found
  · by_cases symmetric : r.isSymmetric = true
    · exact reaps.distinct symmetric
    · have apart := List.pairwise_map.mp (distinct.sublist (reaps.part.map (·.vertices)))
      refine List.pairwise_map.mpr (apart.imp_of_mem fun he he' different same => different ?_)
      exact wellFormed.vertices_eq_of_key symmetric (arity _ he) (arity _ he') same
  · exact fun e he => ⟨(all e).mp (reaps.part.subset he), reaps.accepted e he⟩
  · exact fun e embeds accepted => reaps.all e ((all e).mpr embeds) accepted

end Rule

namespace Grammar

variable {g : Grammar D}

/-- Without a limit, and with predicates whose answers do not depend on the state of the caller, a
search finds occurrences that the whole-match predicate accepts, each with its first binding of
distinct edges, and for every accepted occurrence exactly one of those that differ from it by a
symmetry of the rule. -/
theorem find_exact (grown : g.Grown) (built : host.Built)
    (unlimited : g.settings.matchLimit = none) {id : RuleId} {rule : Rule D}
    (registered : g.rule? id = some rule) (oblivious : rule.Oblivious) (s : D.MatchState) :
    ∃ found, (g.find id host s).result = .ok found ∧
      (∀ m ∈ found, rule.Occurs host m.vertices ∧ rule.FirstBinding host m.vertices m.edges ∧
        rule.Accepts host m) ∧
      ∀ v, rule.Occurs host v → ∃ edges, rule.FirstBinding host v edges ∧
        (rule.Accepts host ⟨v, edges⟩ → ∃! i : Nat, ∃ m, found[i]? = some m ∧
          ∃ sigma ∈ rule.symmetries, m.vertices = Symmetry.rearrange sigma v) := by
  obtain ⟨wellFormed, -⟩ := grown.sound.rules _ rule registered
  have consistent := built.consistent
  obtain ⟨taken, found, distinct, sound, complete⟩ :=
    Rule.exists_reaps wellFormed consistent oblivious s
  have rearranged {e e' : Embedding} (h : e.vertices.length = rule.vertices.length)
      (h' : e'.vertices.length = rule.vertices.length) : rule.key e = rule.key e' ↔
        ∃ sigma ∈ rule.symmetries,
          e.occurrence.vertices = Symmetry.rearrange sigma e'.occurrence.vertices := by
    rw [wellFormed.key_eq_iff h h']
    refine exists_congr fun sigma => and_congr_right fun _ => ?_
    change _ ↔ e.vertices.map Handle.mk = Symmetry.rearrange sigma (e'.vertices.map Handle.mk)
    rw [Symmetry.rearrange_map, List.map_inj_right (handle_mk_injective .vertex)]
  refine ⟨taken.map (·.occurrence), ?_, ?_, ?_⟩
  · unfold find
    rw [registered, unlimited]
    exact congrArg Except.ok found
  · intro m hm
    obtain ⟨e, he, rfl⟩ := List.mem_map.mp hm
    obtain ⟨embeds, accepted⟩ := sound e he
    exact ⟨embeds.occurs consistent wellFormed, embeds.firstBinding consistent wellFormed, accepted⟩
  · intro v occurs
    obtain ⟨e, embeds, rfl⟩ := exists_embeds consistent wellFormed occurs
    refine ⟨_, embeds.firstBinding consistent wellFormed, fun accepted => ?_⟩
    have arity {e'' : Embedding} (h : e'' ∈ taken) :
        e''.vertices.length = rule.vertices.length := (sound e'' h).1.arity
    have represents (i : Nat) : (∃ m, (taken.map (·.occurrence))[i]? = some m ∧
        ∃ sigma ∈ rule.symmetries, m.vertices = Symmetry.rearrange sigma e.occurrence.vertices) ↔
          (taken.map rule.key)[i]? = some (rule.key e) := by
      simp only [List.getElem?_map, Option.map_eq_some_iff]
      constructor
      · rintro ⟨_, ⟨e'', found, rfl⟩, turned⟩
        exact ⟨e'', found, (rearranged (arity (List.mem_of_getElem? found)) embeds.arity).mpr turned⟩
      · rintro ⟨e'', found, same⟩
        exact ⟨_, ⟨e'', found, rfl⟩,
          (rearranged (arity (List.mem_of_getElem? found)) embeds.arity).mp same⟩
    obtain ⟨e', he', same⟩ := complete e embeds accepted
    obtain ⟨i, there⟩ := List.mem_iff_getElem?.mp (List.mem_map.mpr ⟨e', he', same⟩)
    refine ⟨i, (represents i).mpr there, fun j other => ?_⟩
    have there' := (represents j).mp other
    exact (List.getElem?_inj (List.getElem?_eq_some_iff.mp there').1 distinct).mp
      (there'.trans there.symm)

open Samples in
/-- An edge to be split is found once although it can be read in either direction, and a doubled
edge is one occurrence. -/
theorem find_exact_doubled : ∃ rule found,
    (single splitEdge).rule? ⟨0⟩ = some rule ∧
    ((single splitEdge).find ⟨0⟩ (shaped 3 [(0, 1), (0, 1), (1, 2)]) ()).result = .ok found ∧
    found.length = 2 ∧ ∀ m ∈ found,
      rule.Occurs (shaped 3 [(0, 1), (0, 1), (1, 2)]) m.vertices ∧
      rule.FirstBinding (shaped 3 [(0, 1), (0, 1), (1, 2)]) m.vertices m.edges ∧
      ∃! i : Nat, ∃ m', found[i]? = some m' ∧
        ∃ sigma ∈ rule.symmetries, m'.vertices = Symmetry.rearrange sigma m.vertices := by
  obtain ⟨rule, registered, unchecked⟩ : ∃ rule, (single splitEdge).rule? ⟨0⟩ = some rule ∧
      rule.IsUnchecked := ⟨_, rfl, by decide +kernel⟩
  obtain ⟨found, result, sound, complete⟩ := find_exact (grown_single splitEdge)
    (built_shaped 3 [(0, 1), (0, 1), (1, 2)]) rfl registered unchecked.oblivious ()
  obtain ⟨found', result', length⟩ : ∃ found', ((single splitEdge).find ⟨0⟩
      (shaped 3 [(0, 1), (0, 1), (1, 2)]) ()).result = .ok found' ∧ found'.length = 2 :=
    exists_of_check (by decide +kernel)
  cases result.symm.trans result'
  refine ⟨rule, found, registered, result, length, fun m hm => ?_⟩
  obtain ⟨occurs, first, accepted⟩ := sound m hm
  obtain ⟨edges, first', represented⟩ := complete m.vertices occurs
  obtain rfl := first.unique first'
  exact ⟨occurs, first, represented accepted⟩

end Grammar

end GraphSplice
