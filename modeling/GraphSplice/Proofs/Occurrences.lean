import GraphSplice.Proofs.Matching
import Mathlib.Data.List.GetD

/-!
The occurrences of a rule, described without the search for them. Where the answers of the
predicates do not depend on the state of the caller, the embeddings that the search visits are these
occurrences, each with the lexicographically first of its edge bindings.
-/

namespace GraphSplice

open Search

variable {D : Domain} {host : Host D} {r : Rule D}

namespace Rule

/-- The answers of the predicates depend on the graph and on what is bound, not on the state of the
caller. -/
structure Oblivious (r : Rule D) : Prop where
  vertices : ∀ vertex ∈ r.vertices, ∀ check ∈ vertex.check, ∀ context v s s',
    (check context v s).1 = (check context v s').1
  edges : ∀ edge ∈ r.edges, ∀ check ∈ edge.check, ∀ context e s s',
    (check context e s).1 = (check context e s').1
  occurrences : ∀ check ∈ r.accepts, ∀ context o s s',
    (check context o s).1 = (check context o s').1

/-- The rule has no predicates. -/
def IsUnchecked (r : Rule D) : Prop :=
  (∀ vertex ∈ r.vertices, vertex.check.isNone = true) ∧
    (∀ edge ∈ r.edges, edge.check.isNone = true) ∧ r.accepts.isNone = true

instance (r : Rule D) : Decidable r.IsUnchecked := inferInstanceAs (Decidable (_ ∧ _ ∧ _))

theorem not_mem_of_isNone {α : Type} {x : Option α} (none : x.isNone = true) {a : α} : a ∉ x := by
  rw [Option.isNone_iff_eq_none.mp none]
  exact Option.not_mem_none a

theorem IsUnchecked.oblivious (unchecked : r.IsUnchecked) : r.Oblivious where
  vertices vertex hv _ asked := absurd asked (not_mem_of_isNone (unchecked.1 vertex hv))
  edges edge he _ asked := absurd asked (not_mem_of_isNone (unchecked.2.1 edge he))
  occurrences _ asked := absurd asked (not_mem_of_isNone unchecked.2.2)

def PassesVertex (r : Rule D) (host : Host D) (i : Nat) (v : VertexId) : Prop :=
  ∀ vertex, r.vertices[i]? = some vertex → ∀ check ∈ vertex.check, ∀ s,
    (check ⟨host, r.id⟩ v s).1 = true

def PassesEdge (r : Rule D) (host : Host D) (k : Nat) (e : EdgeId) : Prop :=
  ∀ edge, r.edges[k]? = some edge → ∀ check ∈ edge.check, ∀ s, (check ⟨host, r.id⟩ e s).1 = true

/-- The whole-match predicate answers yes. -/
def Accepts (r : Rule D) (host : Host D) (o : Occurrence) : Prop :=
  ∀ check ∈ r.accepts, ∀ s, (check ⟨host, r.id⟩ o s).1 = true

/-- The rule has no edge predicates. -/
def HasPlainEdges (r : Rule D) : Prop := ∀ edge ∈ r.edges, edge.check.isNone = true

instance (r : Rule D) : Decidable r.HasPlainEdges := inferInstanceAs (Decidable (∀ _ ∈ _, _))

theorem HasPlainEdges.passesEdge (plain : r.HasPlainEdges) (k : Nat) (e : EdgeId) :
    r.PassesEdge host k e := fun edge found _ asked =>
  absurd asked (not_mem_of_isNone (plain edge (List.mem_of_getElem? found)))

namespace IsUnchecked

variable (unchecked : r.IsUnchecked)

include unchecked

theorem plain : r.HasPlainEdges := unchecked.2.1

theorem passesVertex (i : Nat) (v : VertexId) : r.PassesVertex host i v :=
  fun vertex found _ asked =>
    absurd asked (not_mem_of_isNone (unchecked.1 vertex (List.mem_of_getElem? found)))

theorem accepts (o : Occurrence) : r.Accepts host o := fun _ asked =>
  absurd asked (not_mem_of_isNone unchecked.2.2)

end IsUnchecked

/-- The `k`-th matched edge lies between the `i`-th and the `j`-th vertex. -/
def Between (r : Rule D) (i j k : Nat) : Prop :=
  ∃ edge, r.edges[k]? = some edge ∧ edge.ends.Joins i j

/-- Distinct vertices of the host pass the predicates; between two of them are no edges where the
rule has none, and else accepted edges for those of the rule. -/
structure Occurs (r : Rule D) (host : Host D) (v : List VertexId) : Prop where
  arity : v.length = r.vertices.length
  nodup : v.Nodup
  contained : ∀ x ∈ v, host.Contains x
  passes : ∀ (i : Nat) (x : VertexId), v[i]? = some x → r.PassesVertex host i x
  induced : ∀ (i j : Nat) (a b : VertexId), v[i]? = some a → v[j]? = some b → i ≠ j →
    (∀ k, ¬ r.Between i j k) → ∀ e record, host.edge? e = some record → ¬ record.ends.Joins a b
  assignable : ∀ (i j : Nat) (a b : VertexId), v[i]? = some a → v[j]? = some b → i ≠ j →
    ∃ f : Nat → EdgeId, Set.InjOn f {k | r.Between i j k} ∧ ∀ k, r.Between i j k →
      r.PassesEdge host k (f k) ∧ ∃ record, host.edge? (f k) = some record ∧ record.ends.Joins a b

/-- Distinct accepted edges of the host, each between the vertices bound to the ends of its matched
edge. -/
structure Binding (r : Rule D) (host : Host D) (v : List VertexId) (edges : List EdgeId) :
    Prop where
  each : List.Forall₂ (Binds host v) r.edges edges
  passes : ∀ (k : Nat) (e : EdgeId), edges[k]? = some e → r.PassesEdge host k e
  nodup : edges.Nodup

/-- The lexicographically first binding. -/
structure FirstBinding (r : Rule D) (host : Host D) (v : List VertexId) (edges : List EdgeId) :
    Prop extends r.Binding host v edges where
  first : ∀ other, r.Binding host v other → edges ≤ other

theorem FirstBinding.unique {v : List VertexId} {edges other : List EdgeId}
    (h : r.FirstBinding host v edges) (h' : r.FirstBinding host v other) : edges = other :=
  List.le_antisymm (h.first other h'.toBinding) (h'.first edges h.toBinding)

/-- The terms of a search whose predicates are those of the rule. -/
def terms (r : Rule D) (host : Host D) : Terms :=
  ⟨True, fun i t => r.PassesVertex host i ⟨t⟩, fun k t => r.PassesEdge host k ⟨t⟩⟩

/-- The same terms for edges only. -/
def edgeTerms (r : Rule D) (host : Host D) : Terms := ⟨True, fun _ _ => True, (r.terms host).edge⟩

end Rule

/-! ## Bindings and assignments -/

theorem Rule.mem_edgesBetween_of_binds (consistent : host.Consistent) {v : List VertexId}
    {edge : MatchedEdge D} {d : EdgeId} (binds : Rule.Binds host v edge d) {i j : Nat}
    {a b : VertexId} (hi : v[i]? = some a) (hj : v[j]? = some b) (joins : edge.ends.Joins i j) :
    d.slot ∈ host.asTarget.edgesBetween a.slot b.slot := by
  obtain ⟨record, ends, found, bound, across⟩ := binds
  refine (Graph.mem_asTarget_edgesBetween_iff consistent).mpr ⟨record, found, ?_⟩
  rcases joins with same | same
  · simp only [Rule.boundEnds?, same, hi, hj, Option.some.injEq] at bound
    subst bound
    exact across
  · simp only [Rule.boundEnds?, same, hi, hj, Option.some.injEq] at bound
    subst bound
    exact Ends.joins_comm.mp across

/-- What a binding assigns to the edges between two vertices. -/
theorem Rule.Binding.assigns (consistent : host.Consistent) {v : List VertexId}
    {edges : List EdgeId} (bound : r.Binding host v edges) {i j : Nat} {a b : VertexId}
    (hi : v[i]? = some a) (hj : v[j]? = some b) :
    Assigns (r.terms host).edge (host.asTarget.edgesBetween a.slot b.slot) []
      (r.pattern.edgesBetween i j)
      ((r.pattern.edgesBetween i j).map fun k => (edges.getD k ⟨0⟩).slot) := by
  have at_edge (k : Nat) (hk : k ∈ r.pattern.edgesBetween i j) : ∃ edge d,
      r.edges[k]? = some edge ∧ edge.ends.Joins i j ∧ edges[k]? = some d ∧
        edges.getD k ⟨0⟩ = d ∧ Rule.Binds host v edge d := by
    obtain ⟨edge, hedge, joins⟩ := Rule.mem_pattern_edgesBetween_iff.mp hk
    obtain ⟨d, hd, binds⟩ := (forall₂_getElem? bound.each k).1 edge hedge
    exact ⟨edge, d, hedge, joins, hd, by rw [List.getD_eq_getElem?_getD, hd, Option.getD_some],
      binds⟩
  constructor
  · rw [List.forall₂_map_right_iff, List.forall₂_same]
    intro k hk
    obtain ⟨edge, d, -, joins, hd, same, binds⟩ := at_edge k hk
    rw [same]
    exact ⟨Rule.mem_edgesBetween_of_binds consistent binds hi hj joins, bound.passes k d hd⟩
  · refine List.Nodup.map_on ?_ (r.pattern.nodup_edgesBetween i j)
    intro k hk l hl same
    obtain ⟨_, d, -, -, hd, sameD, -⟩ := at_edge k hk
    obtain ⟨_, d', -, -, hd', sameD', -⟩ := at_edge l hl
    rw [sameD, sameD'] at same
    obtain rfl := Handle.ext_slot same
    exact (List.getElem?_inj (List.getElem?_eq_some_iff.mp hd).1 bound.nodup).mp (hd.trans hd'.symm)
  · simp

namespace Search

/-- If there is an assignment there is a first one. -/
theorem exists_assignsFirst {E : Nat → Nat → Prop} {targets edges chosen : List Nat}
    (ascending : targets.Pairwise (· < ·)) (h : Assigns E targets [] edges chosen) :
    ∃ first, AssignsFirst (· < ·) E targets [] edges first := by
  classical
  have tells (edge target : Nat) : Ensures (fun _ : Unit => True)
      (fun s => (decide (E edge target), s)) (Tells True (E edge target)) :=
    fun _ _ => ⟨⟨of_decide_eq_true, fun _ => decide_eq_true⟩, trivial⟩
  obtain ⟨⟨found, missing⟩, -⟩ := ensures_assignEdges ascending [] edges tells () trivial
  cases result : (assignEdges (fun k t (s : Unit) => (decide (E k t), s)) targets edges [] ()).1 with
  | none => exact absurd h (missing result trivial chosen)
  | some first => exact ⟨first, (found first result).2 trivial⟩

/-! ## Embeddings under the predicates of the rule -/

/-- Sequences over ascending positions compare as their values at the least position where they
differ. -/
theorem map_lt_map {f g : Nat → Nat} {ks : List Nat} (ascending : ks.Pairwise (· < ·)) {j : Nat}
    (member : j ∈ ks) (before : ∀ k ∈ ks, k < j → f k = g k) (less : f j < g j) :
    ks.map f < ks.map g := by
  induction ks with
  | nil => cases member
  | cons k ks ih =>
    obtain ⟨least, ascending⟩ := List.pairwise_cons.mp ascending
    rw [List.map_cons, List.map_cons, List.cons_lt_cons_iff]
    rcases List.mem_cons.mp member with rfl | later
    · exact .inl less
    · refine .inr ⟨before k List.mem_cons_self (least j later), ?_⟩
      exact ih ascending later fun k' hk' => before k' (List.mem_cons_of_mem _ hk')

namespace Embeds

variable {e : Embedding}

section Edges

variable (h : Embeds (r.edgeTerms host) r.pattern host.asTarget e)

include h

theorem edges_binding (consistent : host.Consistent) (wellFormed : r.WellFormed) :
    r.Binding host e.occurrence.vertices e.occurrence.edges where
  each := by
    have valid := h.valid consistent wellFormed
    refine forall₂_of_getElem? valid.edgeArity.symm ?_
    exact fun j edge d hedge hd => valid.edges j edge d hedge hd
  passes k d hd := by
    have below : k < r.edges.length := by
      have inside := (List.getElem?_eq_some_iff.mp hd).1
      rwa [(h.valid consistent wellFormed).edgeArity] at inside
    have hedge := List.getElem?_eq_getElem below
    obtain ⟨_, _, -, -, -, holds⟩ := h.mem_edgesBetween consistent wellFormed hedge hd
    exact holds
  nodup := (h.nodup_edges wellFormed.plain (Graph.regular_asTarget consistent)).map
    (handle_mk_injective .edge)

/-- The binding that the search finds is the first one. -/
theorem edges_firstBinding (consistent : host.Consistent) (wellFormed : r.WellFormed) :
    r.FirstBinding host e.occurrence.vertices e.occurrence.edges where
  toBinding := h.edges_binding consistent wellFormed
  first other bound := by
    have length : other.length = e.occurrence.edges.length :=
      bound.each.length_eq.symm.trans (h.edges_binding consistent wellFormed).each.length_eq
    intro less
    rcases List.lt_iff_exists.mp less with ⟨-, shorter⟩ | ⟨q, inside, inside', before, least⟩
    · exact shorter.ne length
    have below : q < r.pattern.edges.length := by
      rw [← h.edgeArity]
      simpa [Embedding.occurrence] using inside'
    obtain ⟨i, j, a, b, different, hi, hj, between⟩ := h.exists_images wellFormed.plain below
    -- Between these two vertices the other binding would be an earlier assignment.
    have assigns :=
      bound.assigns consistent (Embedding.vertices_getElem?_eq_some.mpr hi : _ = some ⟨a⟩)
      (Embedding.vertices_getElem?_eq_some.mpr hj : _ = some ⟨b⟩)
    have earlier : (r.pattern.edgesBetween i j).map (fun k => (other.getD k ⟨0⟩).slot) <
        (r.pattern.edgesBetween i j).map (e.edges.getD · 0) := by
      have slot (k : Nat) : e.edges.getD k 0 = (e.occurrence.edges.getD k ⟨0⟩).slot :=
        congrArg Handle.slot (List.getD_map e.edges 0 Handle.mk).symm
      simp only [slot]
      refine map_lt_map (r.pattern.edgesBetween_ascending i j) between ?_ ?_
      · intro k _ hk
        rw [List.getD_eq_getElem _ _ (hk.trans inside), List.getD_eq_getElem _ _ (hk.trans inside'),
          before k hk]
      · rw [List.getD_eq_getElem _ _ inside, List.getD_eq_getElem _ _ inside']
        exact least
    rcases ((h.assigned_map hi hj different).2 trivial).first _ assigns with same | later
    · exact lt_irrefl _ (same ▸ earlier)
    · exact lt_asymm earlier later

end Edges

variable (h : Embeds (r.terms host) r.pattern host.asTarget e)

include h

theorem forgetVertices : Embeds (r.edgeTerms host) r.pattern host.asTarget e :=
  { h with vertex := fun _ _ _ => trivial }

theorem binding (consistent : host.Consistent) (wellFormed : r.WellFormed) :
    r.Binding host e.occurrence.vertices e.occurrence.edges :=
  h.forgetVertices.edges_binding consistent wellFormed

theorem firstBinding (consistent : host.Consistent) (wellFormed : r.WellFormed) :
    r.FirstBinding host e.occurrence.vertices e.occurrence.edges :=
  h.forgetVertices.edges_firstBinding consistent wellFormed

theorem occurs (consistent : host.Consistent) (wellFormed : r.WellFormed) :
    r.Occurs host e.occurrence.vertices where
  arity := (List.length_map _).trans h.arity
  nodup := h.nodup_occurrence
  contained := (h.valid consistent wellFormed).vertices
  passes i x found := h.vertex i x.slot (Embedding.vertices_getElem?_eq_some.mp found)
  induced i j a b hi hj different none d record found joins := by
    have apart : r.pattern.edgesBetween i j = [] := List.eq_nil_iff_forall_not_mem.mpr fun k hk =>
      none k (Rule.mem_pattern_edgesBetween_iff.mp hk)
    have empty := h.induced i j a.slot b.slot (Embedding.vertices_getElem?_eq_some.mp hi)
      (Embedding.vertices_getElem?_eq_some.mp hj) different apart
    have member : d.slot ∈ host.asTarget.edgesBetween a.slot b.slot :=
      (Graph.mem_asTarget_edgesBetween_iff consistent).mpr ⟨record, found, joins⟩
    rw [empty] at member
    cases member
  assignable i j a b hi hj different := by
    have hi' := Embedding.vertices_getElem?_eq_some.mp hi
    have hj' := Embedding.vertices_getElem?_eq_some.mp hj
    refine ⟨fun k => ⟨e.edges.getD k 0⟩, ?_, ?_⟩
    · intro k hk l hl same
      have nodup := (h.assigned_map hi' hj' different).1.nodup
      exact List.inj_on_of_nodup_map nodup (Rule.mem_pattern_edgesBetween_iff.mpr hk)
        (Rule.mem_pattern_edgesBetween_iff.mpr hl) (congrArg Handle.slot same)
    · intro k hk
      obtain ⟨member, holds⟩ :=
        h.getD_edges hi' hj' different (Rule.mem_pattern_edgesBetween_iff.mpr hk)
      exact ⟨holds, (Graph.mem_asTarget_edgesBetween_iff consistent).mp member⟩

end Embeds

/-- Between the images of two vertices, the `k`-th edge is first assigned to `t`. -/
def Sends (r : Rule D) (host : Host D) (v : List VertexId) (k t : Nat) : Prop :=
  ∃ i j a b chosen, v[i]? = some a ∧ v[j]? = some b ∧ i ≠ j ∧
    (r.terms host).Assigned (host.asTarget.edgesBetween a.slot b.slot)
      (r.pattern.edgesBetween i j) chosen ∧ (k, t) ∈ (r.pattern.edgesBetween i j).zip chosen

theorem Sends.unique (consistent : host.Consistent) {v : List VertexId} {k t t' : Nat}
    (h : Sends r host v k t) (h' : Sends r host v k t') : t = t' := by
  obtain ⟨i, j, a, b, chosen, hi, hj, -, assigned, pair⟩ := h
  obtain ⟨i', j', a', b', chosen', hi', hj', -, assigned', pair'⟩ := h'
  have regular := Graph.regular_asTarget consistent
  have same : chosen' = chosen ∧ r.pattern.edgesBetween i' j' = r.pattern.edgesBetween i j := by
    rcases Pattern.eq_of_mem_edgesBetween (List.of_mem_zip pair).1 (List.of_mem_zip pair').1 with
      ⟨rfl, rfl⟩ | ⟨rfl, rfl⟩
    · cases hi.symm.trans hi'
      cases hj.symm.trans hj'
      exact ⟨assigned'.unique trivial assigned, rfl⟩
    · cases hi.symm.trans hj'
      cases hj.symm.trans hi'
      rw [regular.comm, r.pattern.edgesBetween_comm] at assigned'
      exact ⟨assigned'.unique trivial assigned, r.pattern.edgesBetween_comm _ _⟩
  rw [same.1, same.2] at pair'
  have sorted : Table.Sorted ((r.pattern.edgesBetween i j).zip chosen) := by
    unfold Table.Sorted
    rw [List.map_fst_zip assigned.1.length_eq.ge]
    exact r.pattern.edgesBetween_ascending i j
  exact sorted.unique pair pair'

end Search

namespace Rule.Occurs

variable {v : List VertexId}

/-- Between the images of two vertices the edges have a first assignment. -/
theorem exists_assigned (occurs : r.Occurs host v) (consistent : host.Consistent) {i j : Nat}
    {a b : VertexId} (hi : v[i]? = some a) (hj : v[j]? = some b) (different : i ≠ j) :
    ∃ chosen, (r.terms host).Assigned (host.asTarget.edgesBetween a.slot b.slot)
      (r.pattern.edgesBetween i j) chosen := by
  obtain ⟨f, injective, suits⟩ := occurs.assignable i j a b hi hj different
  have some : Assigns (r.terms host).edge (host.asTarget.edgesBetween a.slot b.slot) []
      (r.pattern.edgesBetween i j) ((r.pattern.edgesBetween i j).map fun k => (f k).slot) := by
    constructor
    · rw [List.forall₂_map_right_iff, List.forall₂_same]
      intro k hk
      obtain ⟨passes, joined⟩ := suits k (Rule.mem_pattern_edgesBetween_iff.mp hk)
      exact ⟨(Graph.mem_asTarget_edgesBetween_iff consistent).mpr joined, passes⟩
    · refine List.Nodup.map_on ?_ (r.pattern.nodup_edgesBetween i j)
      intro k hk l hl same
      exact injective (Rule.mem_pattern_edgesBetween_iff.mp hk)
        (Rule.mem_pattern_edgesBetween_iff.mp hl) (Handle.ext_slot same)
    · simp
  obtain ⟨first, least⟩ :=
    exists_assignsFirst ((Graph.regular_asTarget consistent).ascending _ _) some
  exact ⟨first, least.toAssigns, fun _ => least⟩

theorem exists_sends (occurs : r.Occurs host v) (consistent : host.Consistent)
    (wellFormed : r.WellFormed) {k : Nat} (below : k < r.pattern.edges.length) :
    ∃ t, Sends r host v k t := by
  obtain ⟨i, j, different, inside, inside', between⟩ := wellFormed.plain.exists_pair below
  have hi := List.getElem?_eq_getElem (l := v) (inside.trans_eq occurs.arity.symm)
  have hj := List.getElem?_eq_getElem (l := v) (inside'.trans_eq occurs.arity.symm)
  obtain ⟨chosen, first⟩ := occurs.exists_assigned consistent hi hj different
  obtain ⟨t, pair⟩ := first.1.exists_target between
  exact ⟨t, i, j, _, _, chosen, hi, hj, different, first, pair⟩

end Rule.Occurs

namespace Search

/-- Every occurrence is the vertex part of an embedding. -/
theorem exists_embeds (consistent : host.Consistent) (wellFormed : r.WellFormed)
    {v : List VertexId} (occurs : r.Occurs host v) :
    ∃ e, Embeds (r.terms host) r.pattern host.asTarget e ∧ e.occurrence.vertices = v := by
  obtain ⟨edges, related⟩ := exists_forall₂ fun k hk =>
    occurs.exists_sends consistent wellFormed (List.mem_range.mp hk)
  have slots (i t : Nat) (found : (v.map Handle.slot)[i]? = some t) : v[i]? = some ⟨t⟩ := by
    rw [List.getElem?_map, Option.map_eq_some_iff] at found
    obtain ⟨x, found, rfl⟩ := found
    exact found
  refine ⟨⟨v.map Handle.slot, edges⟩, ?_, by simp [Embedding.occurrence, Function.comp_def]⟩
  constructor
  case arity => exact (List.length_map _).trans occurs.arity
  case nodup => exact occurs.nodup.map fun _ _ => Handle.ext_slot
  case inside =>
    intro t ht
    obtain ⟨x, hx, rfl⟩ := List.mem_map.mp ht
    exact occurs.contained x hx
  case vertex => exact fun i t found => occurs.passes i ⟨t⟩ (slots i t found)
  case induced =>
    intro i j a b hi hj different none
    refine List.eq_nil_iff_forall_not_mem.mpr fun d hd => ?_
    obtain ⟨record, found, joins⟩ := (Graph.mem_asTarget_edgesBetween_iff consistent).mp hd
    refine occurs.induced i j ⟨a⟩ ⟨b⟩ (slots i a hi) (slots j b hj) different ?_ ⟨d⟩ record found joins
    intro k hk
    have member := Rule.mem_pattern_edgesBetween_iff.mpr hk
    rw [none] at member
    cases member
  case edgeArity => exact related.length_eq.symm.trans List.length_range
  case assigned =>
    intro i j a b hi hj different
    obtain ⟨chosen, first⟩ := occurs.exists_assigned consistent (slots i a hi) (slots j b hj)
      different
    refine ⟨chosen, first, ?_⟩
    rintro ⟨k, t⟩ pair
    have sends : Sends r host v k t :=
      ⟨i, j, ⟨a⟩, ⟨b⟩, chosen, slots i a hi, slots j b hj, different, first, pair⟩
    obtain ⟨edge, hedge, -⟩ := Rule.mem_pattern_edgesBetween_iff.mp (List.of_mem_zip pair).1
    have below : k < r.pattern.edges.length := by
      simpa [Rule.pattern] using (List.getElem?_eq_some_iff.mp hedge).1
    obtain ⟨t', found, sends'⟩ := (forall₂_getElem? related k).1 k (List.getElem?_range below)
    rw [sends.unique consistent sends']
    exact found

end Search

end GraphSplice
