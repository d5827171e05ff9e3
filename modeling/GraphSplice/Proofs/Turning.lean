import GraphSplice.Proofs.Blueprint.Turning
import GraphSplice.Proofs.Derivation
import GraphSplice.Proofs.Rule.Automorphism

/-!
Bindings of a rule that differ by a symmetry of it describe one occurrence. They are valid together,
are completed with the same host edges, and derive graphs of the same shape. So a search may keep
one binding of each such family and lose nothing.
-/

namespace GraphSplice

open Symmetry

variable {D : Domain} {host : Host D} {r : Rule D} {sigma tau rho : Arrangement}

namespace Rule

/-- A matched edge is bound where its image is, but for the order of the ends. -/
theorem boundEnds?_of_mapsTo {edge edge' : MatchedEdge D} (maps : edge.MapsTo sigma edge')
    {v w : List VertexId} (turned : ∀ i : Nat, w[i]? = v[sigma.apply i]?) :
    boundEnds? edge' v = boundEnds? edge w ∨
      boundEnds? edge' v = (boundEnds? edge w).map Ends.swap := by
  unfold boundEnds?
  rw [turned, turned]
  rcases maps.2 with same | same
  · rw [same]
    exact .inl rfl
  · rw [same]
    right
    cases v[sigma.apply edge.ends.first]? <;> cases v[sigma.apply edge.ends.second]? <;> rfl

/-- The same host edges may be bound to an edge and to its image. -/
theorem exists_boundEnds?_iff (consistent : host.Consistent) {edge edge' : MatchedEdge D}
    (maps : edge.MapsTo sigma edge') {v w : List VertexId}
    (turned : ∀ i : Nat, w[i]? = v[sigma.apply i]?) (P : List EdgeId → Prop) :
    (∃ ends, boundEnds? edge w = some ends ∧ P (host.edgesBetween ends.first ends.second)) ↔
      ∃ ends, boundEnds? edge' v = some ends ∧ P (host.edgesBetween ends.first ends.second) := by
  rcases boundEnds?_of_mapsTo maps turned with same | same
  · rw [same]
  · rw [same]
    simp only [Option.map_eq_some_iff, exists_exists_and_eq_and]
    refine exists_congr fun ends => and_congr_right fun _ => ?_
    rw [Graph.edgesBetween_comm consistent]
    rfl

namespace Automorphism

variable (h : r.Automorphism sigma tau rho)
include h

theorem exists_image {edge : MatchedEdge D} (hedge : edge ∈ r.edges) :
    ∃ edge' ∈ r.edges, edge.MapsTo sigma edge' := by
  obtain ⟨j, found⟩ := List.getElem?_of_mem hedge
  obtain ⟨edge', there, maps⟩ := h.edge j edge found
  exact ⟨edge', List.mem_of_getElem? there, maps⟩

theorem exists_preimage {edge' : MatchedEdge D} (hedge : edge' ∈ r.edges) :
    ∃ edge ∈ r.edges, edge.MapsTo sigma edge' := by
  obtain ⟨j', there⟩ := List.getElem?_of_mem hedge
  obtain ⟨j, rfl⟩ := h.edges.exists_apply j'
  have inside := h.edges.apply_lt_iff.mp (List.getElem?_eq_some_iff.mp there).1
  obtain ⟨_, there', maps⟩ := h.edge j _ (List.getElem?_eq_getElem inside)
  cases there.symm.trans there'
  exact ⟨_, List.getElem_mem inside, maps⟩

variable {v w : List VertexId} (turned : ∀ i : Nat, w[i]? = v[sigma.apply i]?)
include turned

theorem affords_iff (consistent : host.Consistent) : r.Affords host w ↔ r.Affords host v := by
  have image {edge edge' : MatchedEdge D} (hedge : edge ∈ r.edges)
      (maps : edge.MapsTo sigma edge') :=
    exists_boundEnds?_iff consistent maps turned fun listed =>
      edge.alongside r.edges ≤ listed.length
  constructor
  · intro affords edge' hedge'
    obtain ⟨edge, hedge, maps⟩ := h.exists_preimage hedge'
    rw [h.alongside edge hedge edge' maps]
    exact (image hedge maps).mp (affords edge hedge)
  · intro affords edge hedge
    obtain ⟨edge', hedge', maps⟩ := h.exists_image hedge
    refine (image hedge maps).mpr ?_
    rw [← h.alongside edge hedge edge' maps]
    exact affords edge' hedge'

/-- Both bindings are completed with the same host edges. -/
theorem mem_chooseEdges_iff (consistent : host.Consistent) (nodup : v.Nodup) (nodup' : w.Nodup)
    {edges edges' : List EdgeId} (chosen : r.chooseEdges host w = .ok edges)
    (chosen' : r.chooseEdges host v = .ok edges') (e : EdgeId) : e ∈ edges' ↔ e ∈ edges := by
  have image {edge edge' : MatchedEdge D} (hedge : edge ∈ r.edges)
      (maps : edge.MapsTo sigma edge') :=
    exists_boundEnds?_iff consistent maps turned fun listed =>
      e ∈ listed.take (edge.alongside r.edges)
  rw [Rule.mem_chooseEdges_iff consistent nodup chosen',
    Rule.mem_chooseEdges_iff consistent nodup' chosen]
  constructor
  · rintro ⟨edge', hedge', taken⟩
    obtain ⟨edge, hedge, maps⟩ := h.exists_preimage hedge'
    rw [h.alongside edge hedge edge' maps] at taken
    exact ⟨edge, hedge, (image hedge maps).mpr taken⟩
  · rintro ⟨edge, hedge, taken⟩
    obtain ⟨edge', hedge', maps⟩ := h.exists_image hedge
    refine ⟨edge', hedge', ?_⟩
    rw [h.alongside edge hedge edge' maps]
    exact (image hedge maps).mp taken

omit turned

/-! ## The turn -/

/-- The host edges bound to a matched edge and to its image join the same vertices. -/
theorem joins_of_bound {o o' : Occurrence} (valid : Resolved.Valid host ⟨r, o⟩)
    (valid' : Resolved.Valid host ⟨r, o'⟩)
    (turned : ∀ i : Nat, o.vertices[i]? = o'.vertices[sigma.apply i]?) {j : Nat} {e e' : EdgeId}
    (bound : o.edges[j]? = some e) (bound' : o'.edges[rho.apply j]? = some e') :
    ∃ record record', host.edge? e = some record ∧ host.edge? e' = some record' ∧
      record'.ends.Joins record.ends.first record.ends.second := by
  have inside : j < r.edges.length := valid.edgeArity ▸ (List.getElem?_eq_some_iff.mp bound).1
  obtain ⟨edge', there', maps⟩ := h.edge j _ (List.getElem?_eq_getElem inside)
  obtain ⟨record, ends, found, between, joins⟩ :=
    valid.edges j _ e (List.getElem?_eq_getElem inside) bound
  obtain ⟨record', ends', found', between', joins'⟩ := valid'.edges _ edge' e' there' bound'
  have across : ends'.Joins ends.first ends.second := by
    rcases boundEnds?_of_mapsTo maps turned with same | same <;> rw [same, between] at between' <;>
      cases between'
    · exact .inl rfl
    · exact .inr rfl
  exact ⟨record, record', found, found', (Ends.joins_congr joins).mpr (joins'.trans across)⟩

/-- How the sides of a host edge correspond to those of the edge it is carried to. -/
theorem exists_hostTurn {o o' : Occurrence} (valid : Resolved.Valid host ⟨r, o⟩)
    (valid' : Resolved.Valid host ⟨r, o'⟩)
    (turned : ∀ i : Nat, o.vertices[i]? = o'.vertices[sigma.apply i]?) {π : Equiv.Perm EdgeId}
    (along : ∀ j : Nat, o'.edges[rho.apply j]? = (o.edges[j]?).map π)
    (fixed : ∀ e, e ∉ o.edges → π e = e) (e : EdgeId) : ∃ turn : Equiv.Perm Side,
      (∀ side, (host.edge? (π e)).map (·.ends.get (turn side)) =
        (host.edge? e).map (·.ends.get side)) ∧
      ∀ u, (host.edge? (π e)).bind (·.ends.sideAt? u) =
        ((host.edge? e).bind (·.ends.sideAt? u)).map turn := by
  by_cases moved : e ∈ o.edges
  · obtain ⟨j, bound⟩ := List.getElem?_of_mem moved
    have bound' := along j
    rw [bound] at bound'
    obtain ⟨record, record', found, found', joins⟩ :=
      h.joins_of_bound valid valid' turned bound bound'
    obtain ⟨turn, ends, sides⟩ := Ends.exists_turn joins
    refine ⟨turn, fun side => ?_, fun u => ?_⟩
    · rw [found, found', Option.map_some, Option.map_some, ends]
    · rw [found, found', Option.bind_some, Option.bind_some, sides]
  · rw [fixed e moved]
    exact ⟨.refl Side, fun side => rfl, fun u => by simp⟩

omit h in
theorem exists_addedTurn {edge edge' : AddedEdge D} (maps : edge.MapsTo sigma tau rho edge') :
    ∃ turn : Equiv.Perm Side, ∀ side,
      edge'.ends.get (turn side) = Endpoint.map sigma tau (edge.ends.get side) ∧
      edge'.sockets.get (turn side) = (edge.sockets.get side).map rho.apply := by
  let image (z : Endpoint × Option Nat) := (Endpoint.map sigma tau z.1, z.2.map rho.apply)
  have joins : (edge'.ends.zip edge'.sockets).Joins
      ((edge.ends.zip edge.sockets).map image).first
      ((edge.ends.zip edge.sockets).map image).second := maps
  obtain ⟨turn, ends, -⟩ := Ends.exists_turn joins
  refine ⟨turn, fun side => ?_⟩
  have both := ends side
  simp only [Ends.get_map, Ends.get_zip] at both
  exact Prod.mk.inj both

theorem exists_turn {o o' : Occurrence} (valid : Resolved.Valid host ⟨r, o⟩)
    (valid' : Resolved.Valid host ⟨r, o'⟩)
    (turned : ∀ i : Nat, o.vertices[i]? = o'.vertices[sigma.apply i]?) (nodup : o.edges.Nodup)
    (nodup' : o'.edges.Nodup) (same : ∀ e, e ∈ o'.edges ↔ e ∈ o.edges) :
    ∃ t : Turn, t.Relates host r o o' := by
  obtain ⟨onVertices, vertices⟩ := h.vertices.exists_perm
  obtain ⟨onAdded, added⟩ := h.addedVertices.exists_perm
  obtain ⟨onEdges, edges⟩ := h.edges.exists_perm
  -- Both bind the same host edges, so the map of places between them permutes host edges.
  obtain ⟨onHost, along, fixed⟩ := exists_perm_along (ρ := onEdges) nodup nodup' same fun j => by
    rw [edges, valid.edgeArity, valid'.edgeArity]
    exact h.edges.apply_lt_iff
  obtain ⟨onAddedEdges, inside, each⟩ := h.added
  have hostTurn := h.exists_hostTurn valid valid' turned (edges ▸ along) fixed
  have addedTurn (k : Nat) : ∃ turn : Equiv.Perm Side, ∀ side,
      (r.addedEdges[onAddedEdges k]?).map
          (fun y => (y.ends.get (turn side), y.sockets.get (turn side))) =
        (r.addedEdges[k]?).map fun x =>
          (Endpoint.map sigma tau (x.ends.get side), (x.sockets.get side).map rho.apply) := by
    cases found : r.addedEdges[k]? with
    | none =>
      have outside := (inside k).not.mpr (Nat.not_lt.mpr (List.getElem?_eq_none_iff.mp found))
      rw [List.getElem?_eq_none (Nat.not_lt.mp outside)]
      exact ⟨.refl Side, fun side => rfl⟩
    | some edge =>
      obtain ⟨edge', there, maps⟩ := each k edge found
      obtain ⟨turn, ends⟩ := exists_addedTurn maps
      rw [there]
      exact ⟨turn, fun side => congrArg some (Prod.ext (ends side).1 (ends side).2)⟩
  -- Any of the edges may have its ends exchanged, so the sides are matched edge by edge.
  choose hostSides hostEnds sideAt using hostTurn
  choose addedSides addedEnds using addedTurn
  let t : Turn := ⟨onVertices, onEdges, onAdded, onAddedEdges, onHost, hostSides, addedSides⟩
  have endpoint (x : Endpoint) : t.endpoint x = Endpoint.map sigma tau x := by
    cases x with
    | matched i => exact congrArg Endpoint.matched (congrFun vertices i)
    | created k => exact congrArg Endpoint.created (congrFun added k)
  have addedInside (k : Nat) : onAdded k < r.addedVertices.length ↔ k < r.addedVertices.length := by
    rw [added]
    exact h.addedVertices.apply_lt_iff
  refine ⟨t, {
    vertexFate := fun i => by rw [← h.fate i, ← vertices]
    edgeFate := fun j => by rw [← h.edgeFate j, ← edges]
    vertices := fun i => by rw [turned i, ← vertices]
    edges := along
    hostEnds := hostEnds
    sideAt := sideAt
    addedVertices := addedInside
    addedEnds := fun k side => ?_ }⟩
  simp only [endpoint]
  rw [addedEnds, ← edges]

end Automorphism

end Rule

/-- Applications that a symmetry turns into one another derive graphs of the same shape. -/
theorem Turn.Relates.exists_likeness {t : Turn} {o o' : Occurrence} (h : t.Relates host r o o')
    (consistent : host.Consistent) (valid : Resolved.Valid host ⟨r, o⟩)
    (valid' : Resolved.Valid host ⟨r, o'⟩) {d d' : Derivation D} (state : D.BuildState)
    (outcome : Outcome host [⟨r, o⟩] (.ok d)) (outcome' : Outcome host [⟨r, o'⟩] (.ok d')) :
    ∃ f e, d'.Likeness d f e := by
  cases outcome with
  | derived _ fresh balanced _ yields =>
    cases outcome' with
    | derived _ fresh' _ _ yields' =>
      have grounded := Derivation.grounded_of consistent
        (List.forall_mem_singleton.mpr valid) state fresh
      have grounded' := Derivation.grounded_of consistent
        (List.forall_mem_singleton.mpr valid') state fresh'
      obtain ⟨chosen, selects, reads⟩ := yields.exists_reads grounded
      obtain ⟨chosen', selects', reads'⟩ := yields'.exists_reads grounded'
      have counterparts : Blueprint.Counterparts host t.node t.socket (.of host [⟨r, o⟩])
          (.of host [⟨r, o'⟩]) chosen chosen' :=
        ⟨h.corresponds, grounded, grounded', balanced, selects, selects'⟩
      exact counterparts.symm.exists_likeness reads' reads

namespace Grammar

variable {g : Grammar D} {id : RuleId} {rule : Rule D}

theorem outcome_of_deriveOne (grown : g.Grown) (consistent : host.Consistent)
    (found : g.rule? id = some rule) (silent : rule.IsSilent) {o : Occurrence}
    {state : D.BuildState} {d : Derivation D} (h : (g.deriveOne host id o state).result = .ok d) :
    ∃ r, rule.resolve host o = .ok r ∧ Outcome host [r] (.ok d) := by
  obtain ⟨batch, resolved, -⟩ := derive_ok h
  have outcome := Grammar.outcome grown consistent resolved (silentOn_singleton found silent) state
  obtain ⟨r, one, rfl⟩ := resolveAll_singleton_iff.mp resolved
  refine ⟨r, (resolve_eq ⟨id, o⟩ found).symm.trans one, ?_⟩
  rw [← h]
  exact outcome

/-- Two bindings of the matched vertices of a rule that differ by a symmetry of the rule are valid
together, and if both derive a graph, the graphs have the same shape: what is left of the host
vertices stays as it is, and edges go to edges with the corresponding ends. -/
theorem deriveOne_rearrange (grown : g.Grown) (built : host.Built) (found : g.rule? id = some rule)
    {sigma : Arrangement} (symmetric : sigma ∈ rule.symmetries) {bound : List VertexId}
    (arity : bound.length = rule.vertices.length) (nodup : bound.Nodup) :
    (((⟨id, .ofVertices bound⟩ : Application).resolve g.rules host).isOk = true ↔
      ((⟨id, .ofVertices (rearrange sigma bound)⟩ : Application).resolve g.rules host).isOk = true) ∧
    (rule.IsSilent → ∀ (state state' : D.BuildState) (d d' : Derivation D),
      (g.deriveOne host id (.ofVertices bound) state).result = .ok d →
      (g.deriveOne host id (.ofVertices (rearrange sigma bound)) state').result = .ok d' →
      ∃ f e, d.Likeness d' f e) := by
  have wellFormed := (grown.sound.rules id.slot rule found).1
  obtain ⟨tau, rho, h⟩ := Rule.exists_automorphism wellFormed symmetric
  have turned := getElem?_rearrange h.vertices arity
  have arity' := length_rearrange h.vertices arity
  have nodup' := nodup_rearrange h.vertices arity nodup
  constructor
  · rw [resolve_eq ⟨id, _⟩ found, resolve_eq ⟨id, _⟩ found,
      Rule.isOk_resolve_ofVertices_iff built.consistent nodup,
      Rule.isOk_resolve_ofVertices_iff built.consistent nodup', h.affords_iff turned built.consistent]
    simp only [arity, arity', mem_rearrange h.vertices arity]
  · intro silent state state' d d' derived derived'
    obtain ⟨r, resolves, outcome⟩ :=
      outcome_of_deriveOne grown built.consistent found silent derived
    obtain ⟨r', resolves', outcome'⟩ :=
      outcome_of_deriveOne grown built.consistent found silent derived'
    have valid := (Rule.valid_of_resolve wellFormed resolves).1
    have valid' := (Rule.valid_of_resolve wellFormed resolves').1
    obtain ⟨-, -, edges, chosen, rfl⟩ := Rule.resolve_ofVertices_eq_ok_iff.mp resolves
    obtain ⟨-, -, edges', chosen', rfl⟩ := Rule.resolve_ofVertices_eq_ok_iff.mp resolves'
    have same := h.mem_chooseEdges_iff turned built.consistent nodup nodup' chosen' chosen
    obtain ⟨t, relates⟩ := h.exists_turn valid' valid turned (Rule.nodup_chooseEdges chosen')
      (Rule.nodup_chooseEdges chosen) same
    exact relates.exists_likeness built.consistent valid' valid state outcome' outcome

open Samples in
/-- Two parallel edges are crossed; from the other end it is the same. -/
theorem deriveOne_rearrange_parallel : ∃ rule d d' f e,
    (single crossEdges).rule? ⟨0⟩ = some rule ∧ [1, 0] ∈ rule.symmetries ∧
    ((single crossEdges).deriveOne (shaped 2 [(0, 1), (0, 1)]) ⟨0⟩
      (.ofVertices [⟨0⟩, ⟨1⟩]) ()).result = .ok d ∧
    ((single crossEdges).deriveOne (shaped 2 [(0, 1), (0, 1)]) ⟨0⟩
      (.ofVertices [⟨1⟩, ⟨0⟩]) ()).result = .ok d' ∧
    d.Likeness d' f e := by
  obtain ⟨rule, found, symmetric, arity, silent⟩ : ∃ rule,
      (single crossEdges).rule? ⟨0⟩ = some rule ∧ [1, 0] ∈ rule.symmetries ∧
      rule.vertices.length = 2 ∧ rule.IsSilent :=
    ⟨_, rfl, by decide +kernel, by decide +kernel, by decide +kernel⟩
  obtain ⟨d, derived⟩ : ∃ d, ((single crossEdges).deriveOne (shaped 2 [(0, 1), (0, 1)]) ⟨0⟩
      (.ofVertices [⟨0⟩, ⟨1⟩]) ()).result = .ok d := exists_of_isOk (by decide +kernel)
  obtain ⟨d', derived'⟩ : ∃ d', ((single crossEdges).deriveOne (shaped 2 [(0, 1), (0, 1)]) ⟨0⟩
      (.ofVertices [⟨1⟩, ⟨0⟩]) ()).result = .ok d' := exists_of_isOk (by decide +kernel)
  have complete : ([⟨0⟩, ⟨1⟩] : List VertexId).length = rule.vertices.length := arity.symm
  obtain ⟨f, e, alike⟩ := (deriveOne_rearrange (grown_single crossEdges)
    (built_shaped 2 [(0, 1), (0, 1)]) found symmetric complete (by decide)).2 silent () () d d'
    derived derived'
  exact ⟨rule, d, d', f, e, found, symmetric, derived, derived', alike⟩

end Grammar

end GraphSplice
