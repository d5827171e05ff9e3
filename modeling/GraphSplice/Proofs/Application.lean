import GraphSplice.Proofs.Graph.Consistency
import GraphSplice.Proofs.Rule.Compilation

/-!
Resolved applications fit their rule and the host.
-/

namespace GraphSplice

variable {D : Domain} {host : Host D}

structure Resolved.Valid (host : Host D) (r : Resolved D) : Prop where
  rule : r.rule.WellFormed
  arity : r.occurrence.vertices.length = r.rule.vertices.length
  vertices : ∀ v ∈ r.occurrence.vertices, host.Contains v
  edgeArity : r.occurrence.edges.length = r.rule.edges.length
  edges : ∀ (j : Nat) (edge : MatchedEdge D) (e : EdgeId), r.rule.edges[j]? = some edge →
    r.occurrence.edges[j]? = some e → ∃ record ends, host.edge? e = some record ∧
      Rule.boundEnds? edge r.occurrence.vertices = some ends ∧
      record.ends.Joins ends.first ends.second

/-- Bound edges are edges of the host. -/
theorem Resolved.Valid.edge_of_mem_zip {r : Resolved D} (valid : r.Valid host)
    {x : MatchedEdge D × EdgeId} (hx : x ∈ r.rule.edges.zip r.occurrence.edges) :
    ∃ record, host.edge? x.2 = some record := by
  obtain ⟨j, found⟩ := List.mem_iff_getElem?.mp hx
  obtain ⟨edge, bound⟩ := List.getElem?_zip_eq_some.mp found
  obtain ⟨record, -, found, -⟩ := valid.edges j _ _ edge bound
  exact ⟨record, found⟩

namespace Rule

/-- The host edge joins the vertices bound to the ends of the matched edge. -/
def Binds (host : Host D) (vertices : List VertexId) (edge : MatchedEdge D) (e : EdgeId) : Prop :=
  ∃ record ends, host.edge? e = some record ∧ boundEnds? edge vertices = some ends ∧
    record.ends.Joins ends.first ends.second

variable {r : Rule D} {vertices : List VertexId}

theorem boundEnds?_eq_some_iff {edge : MatchedEdge D} {ends : Ends VertexId} :
    boundEnds? edge vertices = some ends ↔
      ∀ side, vertices[edge.ends.get side]? = some (ends.get side) := by
  constructor
  · intro bound side
    unfold boundEnds? at bound
    split at bound
    · next a b first second =>
      cases bound
      cases side
      · exact first
      · exact second
    · cases bound
  · intro each
    have first : vertices[edge.ends.first]? = some ends.first := each .first
    have second : vertices[edge.ends.second]? = some ends.second := each .second
    simp only [boundEnds?, first, second]

/-- The first host edge for the matched edge that is not taken yet. -/
def free? (host : Host D) (vertices : List VertexId) (taken : List EdgeId) (edge : MatchedEdge D) :
    Option EdgeId :=
  (boundEnds? edge vertices).bind fun ends =>
    (host.edgesBetween ends.first ends.second).find? (· ∉ taken)

theorem free?_eq {taken : List EdgeId} {edge : MatchedEdge D} {ends : Ends VertexId}
    (bound : boundEnds? edge vertices = some ends) :
    free? host vertices taken edge =
      (host.edgesBetween ends.first ends.second).find? (· ∉ taken) := by
  rw [free?, bound, Option.bind_some]

theorem toOption_chooseEdges : (r.chooseEdges host vertices).toOption =
    r.edges.zipIdx.foldlM (fun chosen x =>
      (free? host vertices chosen x.1).map fun e => chosen ++ [e]) [] := by
  refine toOption_foldlM (fun chosen x => ?_) _ _
  rw [← free?]
  dsimp only
  cases free? host vertices chosen x.1 <;> rfl

theorem chooseEdges_eq_ok_iff {edges : List EdgeId} :
    r.chooseEdges host vertices = .ok edges ↔
      edges.length = r.edges.length ∧ ∀ (j : Nat) (edge : MatchedEdge D), r.edges[j]? = some edge →
        ∃ e, edges[j]? = some e ∧ free? host vertices (edges.take j) edge = some e := by
  rw [← toOption_eq_some_iff, toOption_chooseEdges, foldlM_choose_iff]
  simp only [List.nil_append, exists_eq_left', List.length_zipIdx, List.getElem?_zipIdx,
    Option.map_eq_some_iff]
  refine and_congr_right fun _ => ?_
  constructor
  · exact fun each j edge found => each j _ ⟨edge, found, rfl⟩
  · rintro each j _ ⟨edge, found, rfl⟩
    exact each j edge found

theorem forall₂_chooseEdges {edges : List EdgeId} (h : r.chooseEdges host vertices = .ok edges) :
    List.Forall₂ (Binds host vertices) r.edges edges := by
  obtain ⟨length, each⟩ := chooseEdges_eq_ok_iff.mp h
  refine forall₂_of_getElem? length.symm fun j edge e found taken => ?_
  obtain ⟨_, taken', free⟩ := each j edge found
  cases taken.symm.trans taken'
  obtain ⟨ends, bound, first⟩ := Option.bind_eq_some_iff.mp free
  obtain ⟨record, there, joins⟩ := Graph.mem_edgesBetween (List.mem_of_find?_eq_some first)
  exact ⟨record, ends, there, bound, joins⟩

theorem forall₂_of_checkEdges {edges : List EdgeId} {u : Unit}
    (h : r.checkEdges host vertices edges = .ok u) (length : edges.length = r.edges.length) :
    List.Forall₂ (Binds host vertices) r.edges edges := by
  have each := forall_of_forM h
  rw [List.forall₂_iff_get]
  refine ⟨length.symm, ?_⟩
  intro i hi hi'
  have inside : i < (r.edges.zip edges).length := by
    rw [List.length_zip]
    omega
  have listed : ((r.edges[i], edges[i]), i) ∈ (r.edges.zip edges).zipIdx := by
    rw [List.mem_zipIdx_iff_getElem?]
    rw [List.getElem?_eq_getElem inside, List.getElem_zip]
  have passed := each _ listed
  simp only at passed
  split at passed
  · cases passed
  · next record found =>
    split at passed
    · next joined =>
      obtain ⟨ends, bound, joins⟩ := (Option.any_eq_true ..).mp joined
      exact ⟨record, ends, found, bound, by simpa using joins⟩
    · cases passed

theorem forall₂_bindEdges {o : Occurrence} {edges : List EdgeId}
    (h : r.bindEdges host o = .ok edges) :
    List.Forall₂ (Binds host o.vertices) r.edges edges := by
  unfold bindEdges at h
  split at h
  · exact forall₂_chooseEdges h
  · split at h
    · next length =>
      obtain ⟨_, checked, h⟩ := bind_ok h
      cases h
      exact forall₂_of_checkEdges checked length
    · cases h

/-- What validation accepts, and what comes of it. -/
theorem resolve_eq_ok_iff {o : Occurrence} {resolved : Resolved D} :
    r.resolve host o = .ok resolved ↔
      o.vertices.length = r.vertices.length ∧ (∀ v ∈ o.vertices, host.Contains v) ∧
        ∃ edges, r.bindEdges host o = .ok edges ∧ resolved = ⟨r, ⟨o.vertices, edges⟩⟩ := by
  constructor
  · intro resolves
    unfold resolve at resolves
    split at resolves
    · cases resolves
    · next arity =>
      split at resolves
      · cases resolves
      · next known =>
        obtain ⟨edges, bound, resolves⟩ := bind_ok resolves
        cases resolves
        exact ⟨not_not.mp arity, by simpa using known, edges, bound, rfl⟩
  · rintro ⟨arity, contained, edges, bound, rfl⟩
    have known : (o.vertices.find? fun v => ¬ host.Contains v) = none :=
      List.find?_eq_none.mpr fun v hv => by simpa using contained v hv
    unfold resolve
    rw [if_neg (not_not.mpr arity), known]
    dsimp only
    rw [bound]
    rfl

theorem valid_of_resolve (wellFormed : r.WellFormed) {o : Occurrence} {resolved : Resolved D}
    (h : r.resolve host o = .ok resolved) : resolved.Valid host ∧ resolved.rule = r := by
  obtain ⟨arity, contained, edges, bound, rfl⟩ := resolve_eq_ok_iff.mp h
  have related := forall₂_bindEdges bound
  refine ⟨⟨wellFormed, arity, contained, related.length_eq.symm, ?_⟩, rfl⟩
  intro j edge e hj he
  obtain ⟨e', found, binds⟩ := (forall₂_getElem? related j).1 edge hj
  rw [he] at found
  cases found
  exact binds

/-- Validation leaves the bound vertices as they are. -/
theorem vertices_of_resolve {o : Occurrence} {resolved : Resolved D}
    (h : r.resolve host o = .ok resolved) : resolved.occurrence.vertices = o.vertices := by
  obtain ⟨-, -, edges, -, rfl⟩ := resolve_eq_ok_iff.mp h
  rfl

/-- A valid application passes validation as it is. -/
theorem resolve_of_valid {resolved : Resolved D} (valid : resolved.Valid host) :
    resolved.rule.resolve host resolved.occurrence = .ok resolved := by
  have checked : resolved.rule.checkEdges host resolved.occurrence.vertices
      resolved.occurrence.edges = .ok ⟨⟩ := by
    apply forM_ok_of_forall
    rintro ⟨⟨edge, e⟩, j⟩ hx
    obtain ⟨there, bound⟩ := List.getElem?_zip_eq_some.mp (List.mem_zipIdx_iff_getElem?.mp hx)
    obtain ⟨record, ends, found, ends_bound, joins⟩ := valid.edges j edge e there bound
    simp [found, ends_bound, joins]
  have complete : ¬ (resolved.occurrence.edges = [] ∧ resolved.rule.edges.length ≠ 0) := by
    intro missing
    rw [← valid.edgeArity, missing.1] at missing
    exact missing.2 rfl
  refine resolve_eq_ok_iff.mpr ⟨valid.arity, valid.vertices, _, ?_, rfl⟩
  unfold bindEdges
  rw [if_neg complete, if_pos valid.edgeArity, checked]
  rfl

end Rule

/-! ## Refusals -/

/-- The error is one that validation finds. -/
def ApplyError.IsInvalid : ApplyError → Prop
  | stale .. | oddCycle _ | malformedSocket .. | graph _ => False
  | unknownRule _ | vertexArity .. | edgeArity .. | unknownVertex _ | unknownEdge _
  | missingEdge .. => True

namespace Rule

variable {r : Rule D} {e : ApplyError}

theorem isInvalid_of_chooseEdges {vertices : List VertexId}
    (h : r.chooseEdges host vertices = .error e) : e.IsInvalid := by
  obtain ⟨chosen, x, -, failed⟩ := exists_error_of_foldlM h
  dsimp only at failed
  split at failed
  · cases failed
    trivial
  · cases failed

theorem isInvalid_of_checkEdges {vertices : List VertexId} {edges : List EdgeId}
    (h : r.checkEdges host vertices edges = .error e) : e.IsInvalid := by
  obtain ⟨x, -, failed⟩ := exists_error_of_forM h
  split at failed
  · cases failed
    trivial
  · split at failed
    · cases failed
    · cases failed
      trivial

theorem isInvalid_of_bindEdges {o : Occurrence} (h : r.bindEdges host o = .error e) :
    e.IsInvalid := by
  unfold bindEdges at h
  split at h
  · exact isInvalid_of_chooseEdges h
  · split at h
    · rcases bind_error h with checked | ⟨_, -, h⟩
      · exact isInvalid_of_checkEdges checked
      · cases h
    · cases h
      trivial

theorem isInvalid_of_resolve {o : Occurrence} (h : r.resolve host o = .error e) :
    e.IsInvalid := by
  unfold resolve at h
  split at h
  · cases h
    trivial
  · split at h
    · cases h
      trivial
    · rcases bind_error h with bound | ⟨_, -, h⟩
      · exact isInvalid_of_bindEdges bound
      · cases h

end Rule

namespace Grammar

variable {g : Grammar D}

theorem resolve_eq (app : Application) {rule : Rule D} (found : g.rule? app.rule = some rule) :
    app.resolve g.rules host = rule.resolve host app.occurrence := by
  have there : g.rules[app.rule.slot]? = some rule := found
  simp only [Application.resolve, there]

theorem resolve_of_missing (app : Application) (missing : g.rule? app.rule = none) :
    app.resolve g.rules host = .error (.unknownRule app.rule) := by
  have there : g.rules[app.rule.slot]? = none := missing
  simp only [Application.resolve, there]

theorem resolveAll_singleton_iff {app : Application} {batch : List (Resolved D)} :
    g.resolveAll host [app] = .ok batch ↔ ∃ r, app.resolve g.rules host = .ok r ∧ batch = [r] := by
  constructor
  · intro resolved
    cases forall₂_of_mapM resolved with
    | cons first rest =>
      cases rest
      exact ⟨_, first, rfl⟩
  · rintro ⟨r, resolved, rfl⟩
    exact mapM_of_forall₂ (.cons resolved .nil)

theorem isInvalid_of_resolveAll {batch : List Application} {e : ApplyError}
    (h : g.resolveAll host batch = .error e) : e.IsInvalid := by
  obtain ⟨app, -, failed⟩ := exists_error_of_mapM h
  cases found : g.rule? app.rule with
  | none =>
    rw [resolve_of_missing app found] at failed
    cases failed
    trivial
  | some rule =>
    rw [resolve_eq app found] at failed
    exact Rule.isInvalid_of_resolve failed

/-- Validation against a grown grammar yields valid applications. -/
theorem valid_of_resolveAll (sound : g.Sound) {batch : List Application}
    {resolved : List (Resolved D)} (h : g.resolveAll host batch = .ok resolved) :
    ∀ r ∈ resolved, r.Valid host ∧ ∃ app ∈ batch, g.rule? app.rule = some r.rule := by
  intro r hr
  obtain ⟨i, there⟩ := List.getElem?_of_mem hr
  obtain ⟨app, happ, resolves⟩ := (forall₂_getElem? (forall₂_of_mapM h) i).2 r there
  cases found : g.rule? app.rule with
  | none =>
    rw [resolve_of_missing app found] at resolves
    cases resolves
  | some rule =>
    rw [resolve_eq app found] at resolves
    obtain ⟨valid, same⟩ := Rule.valid_of_resolve (sound.rules _ rule found).1 resolves
    exact ⟨valid, app, List.mem_of_getElem? happ, by rw [same, found]⟩

end Grammar

end GraphSplice
