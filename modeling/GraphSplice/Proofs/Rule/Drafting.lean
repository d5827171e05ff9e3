import GraphSplice.Proofs.Rule.Compilation

/-!
From calls to rules. A run of calls compiles to a rule as soon as one of them declares a vertex, and
the rule follows the accepted calls: matched and added elements are numbered apart in the order of
their declaration, edges and sockets name the elements that the calls named.
-/

namespace GraphSplice

variable {D : Domain} {d d' : Draft D} {calls : List (Declaration D)}

/-! ## What a draft holds -/

/-- The draft holds the elements that the calls declare, in order. -/
structure Draft.Records (d : Draft D) (calls : List (Declaration D)) : Prop where
  vertices : d.vertices.toList.map (·.call) = vertexCalls calls
  edges : d.edges.toList.map (·.call) = edgeCalls calls

theorem map_setIfInBounds_of_same {α β : Type} {f : α → β} {xs : Array α} {i : Nat} {old new : α}
    (found : xs[i]? = some old) (same : f new = f old) :
    (xs.setIfInBounds i new).toList.map f = xs.toList.map f := by
  have there : (xs.toList.map f)[i]? = some (f old) := by simp [found]
  obtain ⟨inside, value⟩ := List.getElem?_eq_some_iff.mp there
  rw [Array.toList_setIfInBounds, List.map_set, same, ← value, List.set_getElem_self]

namespace Draft.Records

theorem accept (records : d.Records calls) {x : Declaration D} (accepts : d.Accepts x d') :
    d'.Records (calls ++ [x]) := by
  obtain ⟨vertices, edges⟩ := records
  constructor
  case vertices =>
    rw [vertexCalls, List.filterMap_append, ← vertexCalls, ← vertices]
    cases accepts with
    | named _ none | edge _ none => simp [none, named, declareEdge]
    | vertex decl call => simp [call, declareVertex]
    | onVertex none _ found same =>
      rw [List.filterMap_cons_none none, List.filterMap_nil, List.append_nil]
      exact map_setIfInBounds_of_same found same
    | onEdge none => simp [none, putEdge]
  case edges =>
    rw [edgeCalls, List.filterMap_append, ← edgeCalls, ← edges]
    cases accepts with
    | named _ _ none | vertex _ _ none => simp [none, named, declareVertex]
    | edge decl _ call => simp [call, declareEdge]
    | onVertex _ none => simp [none, putVertex]
    | onEdge _ none found same =>
      rw [List.filterMap_cons_none none, List.filterMap_nil, List.append_nil]
      exact map_setIfInBounds_of_same found same

theorem declareAll (records : d.Records calls) (rest : List (Declaration D)) :
    (d.declareAll rest).Records (calls ++ d.accepted rest) := by
  induction rest generalizing d calls with
  | nil =>
    rw [accepted, List.append_nil]
    exact records
  | cons x rest ih =>
    rw [declareAll_cons]
    cases outcome : (d.declare x).result with
    | ok number =>
      have later := ih (records.accept (accepts_declare outcome))
      rwa [List.append_assoc, List.singleton_append, ← accepted_cons_ok outcome] at later
    | error e =>
      rw [accepted_cons_error outcome, draft_declare_of_error outcome]
      exact ih records

end Draft.Records

/-! ## Where calls are found -/

/-- The place of a called vertex in the rule: among its own sort, after those called before it. -/
def endpointOf? (vertices : List (Role × Tag)) (n : Nat) : Option Endpoint :=
  vertices[n]?.map fun vertex =>
    if vertex.1 = .added then .created ((vertices.take n).countP (·.1 = .added))
    else .matched ((vertices.take n).countP (·.1 ≠ .added))

/-- The place of a called matched edge in the rule. -/
def slotOf (edges : List EdgeCall) (n : Nat) : Nat := (edges.take n).countP (·.role ≠ .added)

namespace Draft

theorem Records.endpoint? (records : d.Records calls) (v : Nat) :
    d.endpoint? v = endpointOf? (vertexCalls calls) v := by
  have role (decl : VertexDecl D) := decl.role_eq
  unfold Draft.endpoint? endpointOf?
  rw [← records.vertices, List.getElem?_map, Array.getElem?_toList, ← List.map_take,
    List.countP_map, List.countP_map, Option.map_map]
  refine congrArg (fun f => Option.map f _) (funext fun decl => ?_)
  cases decl with
  | matched vertex =>
    cases fate : vertex.fate <;> simp [VertexDecl.call, Fate.role, fate, role, Function.comp_def]
  | added vertex => simp [VertexDecl.call, role, Function.comp_def]

theorem Records.edgeSlot? (records : d.Records calls) {c : Nat} {edge : MatchedEdge D}
    (found : d.edges[c]? = some (.matched edge)) :
    d.edgeSlot? c = some (slotOf (edgeCalls calls) c) := by
  have role (decl : EdgeDecl D) := decl.role_eq
  unfold Draft.edgeSlot? slotOf
  rw [found, ← records.edges, ← List.map_take, List.countP_map]
  simp only [role, Function.comp_def]

/-! ## Compilation never fails on a vertex -/

theorem exists_endpoint {test : Role → Prop} {v : Nat} (role : d.HasRole test v) :
    ∃ x, d.endpoint v = .ok x := by
  obtain ⟨decl, found, -⟩ := role
  unfold endpoint Draft.endpoint?
  rw [found]
  exact ⟨_, rfl⟩

theorem exists_matchedSlot {v : Nat} (role : d.HasRole (· ≠ .added) v) :
    ∃ i, d.matchedSlot v = .ok i := by
  obtain ⟨decl, found, matched⟩ := role
  cases decl with
  | matched vertex =>
    unfold matchedSlot Draft.endpoint?
    rw [found]
    exact ⟨_, rfl⟩
  | added vertex => exact absurd rfl matched

theorem Sound.exists_matchedEdges (sound : d.Sound) : ∃ edges, d.matchedEdges = .ok edges := by
  unfold Draft.matchedEdges
  refine exists_mapM_of_forall fun edge mem => ?_
  obtain ⟨j, found⟩ := mem_matchedDecls mem
  have roles := (sound j _ found).2
  obtain ⟨first, hf⟩ : ∃ i, d.matchedSlot edge.ends.first = .ok i :=
    exists_matchedSlot (roles .first)
  obtain ⟨second, hs⟩ : ∃ i, d.matchedSlot edge.ends.second = .ok i :=
    exists_matchedSlot (roles .second)
  rw [hf, hs]
  exact ⟨_, rfl⟩

theorem Sound.exists_addedEdges (sound : d.Sound) : ∃ edges, d.addedEdges = .ok edges := by
  unfold Draft.addedEdges
  refine exists_mapM_of_forall fun decl mem => ?_
  obtain ⟨tag, ends, sockets, creation⟩ := decl
  obtain ⟨j, found⟩ := mem_addedDecls mem
  have roles := (sound j _ found).2
  obtain ⟨first, hf⟩ : ∃ x, d.endpoint ends.first = .ok x := exists_endpoint (roles .first).1
  obtain ⟨second, hs⟩ : ∃ x, d.endpoint ends.second = .ok x := exists_endpoint (roles .second).1
  simp only [hf, hs]
  exact ⟨_, rfl⟩

/-- The one reason to refuse a draft is that it has no vertices. -/
theorem Sound.compile_eq (sound : d.Sound) (id : RuleId) (accepts : Option (OccurrenceCheck D)) :
    (d.vertices.toList = [] ∧ d.compile id accepts = .error .empty) ∨
      d.vertices.toList ≠ [] ∧ ∃ edges addedEdges, d.matchedEdges = .ok edges ∧
        d.addedEdges = .ok addedEdges ∧ d.compile id accepts = .ok {
          id := id
          name := d.name
          vertices := d.matchedVertices
          edges := edges
          addedVertices := d.addedVertices
          addedEdges := addedEdges
          symmetries := (Rule.sketch d.matchedVertices edges d.addedVertices addedEdges).symmetries
          accepts := accepts } := by
  unfold Draft.compile
  by_cases none : d.vertices.isEmpty = true
  · exact .inl ⟨by simpa using none, if_pos none⟩
  · obtain ⟨edges, matched⟩ := sound.exists_matchedEdges
    obtain ⟨addedEdges, added⟩ := sound.exists_addedEdges
    rw [if_neg none, matched, added]
    exact .inr ⟨by simpa using none, edges, addedEdges, rfl, rfl, rfl⟩

end Draft

/-! ## What a rule holds -/

/-- The rule has the matched and the added elements that the calls declare, each sort in order; its
edges join the elements that the calls named, and are spliced into the edges that they named. -/
structure Rule.Follows (r : Rule D) (calls : List (Declaration D)) : Prop where
  vertices : r.vertices.map (fun v => (v.fate.role, v.tag)) =
    (vertexCalls calls).filter (·.1 ≠ .added)
  addedVertices : r.addedVertices.map (fun v => (Role.added, v.tag)) =
    (vertexCalls calls).filter (·.1 = .added)
  edges : List.Forall₂ (fun call e => call.role = e.fate.role ∧ call.tag = e.tag ∧
      ∀ side, endpointOf? (vertexCalls calls) (call.ends.get side) =
        some (.matched (e.ends.get side)))
    ((edgeCalls calls).filter (·.role ≠ .added)) r.edges
  addedEdges : List.Forall₂ (fun call e => call.tag = e.tag ∧
      ∀ side, endpointOf? (vertexCalls calls) (call.ends.get side) = some (e.ends.get side) ∧
        e.sockets.get side = (call.sockets.get side).map (slotOf (edgeCalls calls)))
    ((edgeCalls calls).filter (·.role = .added)) r.addedEdges

theorem map_filterMap_eq_filter {α β γ : Type} {f : α → Option β} {g : β → γ} {h : α → γ}
    {p : γ → Bool} (each : ∀ x, (f x).map g = if p (h x) then some (h x) else none) (xs : List α) :
    (xs.filterMap f).map g = (xs.map h).filter p := by
  rw [List.map_filterMap, funext each, ← List.filterMap_eq_filter, List.filterMap_map]
  rfl

namespace Draft

theorem matched_role_ne (edge : MatchedEdge D) : edge.fate.role ≠ .added := by
  cases edge.fate <;> simp [Fate.role]

theorem Records.matchedVertices (records : d.Records calls) :
    d.matchedVertices.map (fun v => (v.fate.role, v.tag)) =
      (vertexCalls calls).filter (·.1 ≠ .added) := by
  rw [← records.vertices]
  refine map_filterMap_eq_filter (fun decl => ?_) _
  cases decl with
  | matched vertex => cases fate : vertex.fate <;> simp [VertexDecl.call, Fate.role, fate]
  | added vertex => simp [VertexDecl.call]

theorem Records.addedVertices (records : d.Records calls) :
    d.addedVertices.map (fun v => (Role.added, v.tag)) =
      (vertexCalls calls).filter (·.1 = .added) := by
  rw [← records.vertices]
  refine map_filterMap_eq_filter (fun decl => ?_) _
  cases decl with
  | matched vertex => cases fate : vertex.fate <;> simp [VertexDecl.call, Fate.role, fate]
  | added vertex => simp [VertexDecl.call]

theorem Records.matchedDecls (records : d.Records calls) :
    d.matchedDecls.map (fun edge => (EdgeDecl.matched edge).call) =
      (edgeCalls calls).filter (·.role ≠ .added) := by
  rw [← records.edges]
  refine map_filterMap_eq_filter (fun decl => ?_) _
  cases decl with
  | matched edge => simp [EdgeDecl.call, matched_role_ne]
  | added => simp [EdgeDecl.call]

theorem Records.addedDecls (records : d.Records calls) :
    d.addedDecls.map (fun x => (⟨.added, x.1, x.2.1, x.2.2.1⟩ : EdgeCall)) =
      (edgeCalls calls).filter (·.role = .added) := by
  rw [← records.edges]
  refine map_filterMap_eq_filter (fun decl => ?_) _
  cases decl with
  | matched edge => simp [EdgeDecl.call, matched_role_ne]
  | added => simp [EdgeDecl.call]

theorem Records.forall₂_matched (records : d.Records calls) {edges : List (MatchedEdge D)}
    (matched : d.matchedEdges = .ok edges) :
    List.Forall₂ (fun call e => call.role = e.fate.role ∧ call.tag = e.tag ∧
        ∀ side, endpointOf? (vertexCalls calls) (call.ends.get side) =
          some (.matched (e.ends.get side)))
      ((edgeCalls calls).filter (·.role ≠ .added)) edges := by
  rw [← records.matchedDecls, List.forall₂_map_left_iff]
  refine (forall₂_matchedEdges matched).imp fun decl edge slots => ?_
  refine ⟨congrArg Fate.role slots.fate.symm, slots.tag.symm, fun side => ?_⟩
  rw [← records.endpoint?]
  exact slots.ends side

theorem Records.forall₂_added (records : d.Records calls) (sound : d.Sound)
    {addedEdges : List (AddedEdge D)} (added : d.addedEdges = .ok addedEdges) :
    List.Forall₂ (fun call e => call.tag = e.tag ∧
        ∀ side, endpointOf? (vertexCalls calls) (call.ends.get side) = some (e.ends.get side) ∧
          e.sockets.get side = (call.sockets.get side).map (slotOf (edgeCalls calls)))
      ((edgeCalls calls).filter (·.role = .added)) addedEdges := by
  have compiled := forall₂_addedEdges added
  rw [← records.addedDecls, List.forall₂_map_left_iff]
  refine forall₂_of_getElem? compiled.length_eq fun i decl edge there found => ?_
  obtain ⟨edge', found', tag, slots⟩ := (forall₂_getElem? compiled i).1 decl there
  cases found.symm.trans found'
  obtain ⟨j, declared⟩ := mem_addedDecls (List.mem_of_getElem? there)
  refine ⟨tag.symm, fun side => ⟨records.endpoint? _ ▸ slots.ends side, ?_⟩⟩
  rw [slots.sockets side]
  cases given : decl.2.2.1.get side with
  | none => rfl
  | some c =>
    -- The socket was checked when it was declared, so it is found again.
    obtain ⟨cut, there', -, -⟩ := (((sound j _ declared).2 side).2 c given).2
    exact records.edgeSlot? there'

end Draft

/-! ## Runs of calls -/

theorem Draft.records_empty : (Draft.empty : Draft D).Records [] := ⟨rfl, rfl⟩

theorem Draft.vertices_eq_nil_iff (calls : List (Declaration D)) :
    (Draft.empty.declareAll calls).vertices.toList = [] ↔ ∀ x ∈ calls, x.vertex? = none := by
  have records := (Draft.records_empty (D := D)).declareAll calls
  rw [← List.map_eq_nil_iff, records.vertices, List.nil_append, vertexCalls_accepted, vertexCalls,
    List.filterMap_eq_nil_iff]

/-- A rule compiled from the draft follows the calls that the draft records. -/
theorem Draft.Records.follows {calls : List (Declaration D)} (records : d.Records calls)
    (sound : d.Sound) {id : RuleId} {accepts : Option (OccurrenceCheck D)} {rule : Rule D}
    (compiled : d.compile id accepts = .ok rule) : rule.Follows calls := by
  rcases sound.compile_eq id accepts with
    ⟨-, refused⟩ | ⟨-, edges, addedEdges, matched, added, made⟩
  · cases compiled.symm.trans refused
  · cases compiled.symm.trans made
    exact ⟨records.matchedVertices, records.addedVertices, records.forall₂_matched matched,
      records.forall₂_added sound added⟩

namespace Grammar

variable {g : Grammar D} {accepts : Option (OccurrenceCheck D)}

theorem add_of_error {e : DraftError} (refused : d.compile g.nextRule accepts = .error e) :
    (g.add d accepts).result = .error e := by
  unfold add
  rw [refused]

theorem add_of_ok {rule : Rule D} (compiled : d.compile g.nextRule accepts = .ok rule) :
    (g.add d accepts).result = .ok rule.id ∧
      (g.add d accepts).grammar.rules = g.rules.push rule := by
  unfold add
  rw [compiled]
  exact ⟨rfl, rfl⟩

/-- A run of calls registers a rule exactly if one of them declares a vertex; nothing else is
refused at the end. The rule is the one that the accepted calls alone give, and it follows them. -/
theorem add_declareAll (g : Grammar D) (calls : List (Declaration D))
    (accepts : Option (OccurrenceCheck D)) :
    let accepted := Draft.empty.accepted calls
    let registered := g.add (Draft.empty.declareAll calls) accepts
    (∀ e, registered.result = .error e ↔ e = .empty ∧ ∀ x ∈ calls, x.vertex? = none) ∧
    Draft.empty.accepted accepted = accepted ∧
    g.add (Draft.empty.declareAll accepted) accepts = registered ∧
    ∀ id, registered.result = .ok id → ∃ rule, registered.grammar.rule? id = some rule ∧
      rule.Follows accepted ∧ rule.WellFormed := by
  intro accepted registered
  have sound := Draft.Sound.empty.declareAll calls
  have records := (Draft.records_empty (D := D)).declareAll calls
  have outcome := sound.compile_eq g.nextRule accepts
  refine ⟨fun e => ?_, Draft.accepted_accepted _ calls, ?_, fun id registers => ?_⟩
  · rw [← Draft.vertices_eq_nil_iff]
    rcases outcome with ⟨none, refused⟩ | ⟨some, _, _, _, _, compiled⟩
    · rw [show registered.result = .error .empty from add_of_error refused, Except.error.injEq]
      exact ⟨fun same => ⟨same.symm, none⟩, fun h => h.1.symm⟩
    · rw [show registered.result = .ok g.nextRule from (add_of_ok compiled).1]
      constructor
      · intro same
        cases same
      · exact fun h => absurd h.2 some
  · exact congrArg (g.add · accepts) (Draft.declareAll_accepted _ calls)
  · cases compiled : (Draft.empty.declareAll calls).compile g.nextRule accepts with
    | error e => cases (add_of_error compiled).symm.trans registers
    | ok rule =>
      obtain ⟨result, rules⟩ := add_of_ok compiled
      obtain ⟨wellFormed, number⟩ := Draft.wellFormed_compile sound compiled
      cases result.symm.trans registers
      refine ⟨rule, ?_, records.follows sound compiled, wellFormed⟩
      rw [rule?, rules, number, nextRule, Array.getElem?_push_size]

end Grammar

end GraphSplice
