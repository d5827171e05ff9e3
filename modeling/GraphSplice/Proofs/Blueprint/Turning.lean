import GraphSplice.Proofs.Blueprint.Batch
import GraphSplice.Proofs.Blueprint.Correspondence

/-!
Two applications of one rule that differ by a symmetry of it. The symmetry carries what the first
application cuts and adds to what the second one does; an edge may have its ends exchanged on the
way, and with them the sockets it leaves or is spliced into. The blueprints of the two applications
correspond.
-/

namespace GraphSplice

/-- Ends that are the same but for the order of the sides. -/
theorem Ends.joins_of_get {α : Type} {x y : Ends α} (turn : Equiv.Perm Side)
    (same : ∀ side, x.get (turn side) = y.get side) : x.Joins y.first y.second := by
  have apart : turn .first ≠ turn .second := turn.injective.ne (by decide)
  have first := same .first
  have second := same .second
  cases one : turn .first <;> cases two : turn .second <;> rw [one] at first <;> rw [two] at second
  · exact absurd (one.trans two.symm) apart
  · exact .inl (congrArg₂ Ends.mk first second)
  · exact .inr (congrArg₂ Ends.mk second first)
  · exact absurd (one.trans two.symm) apart

def Side.flip : Equiv.Perm Side := ⟨other, other, other_other, other_other⟩

theorem Ends.sideAt?_swap {α : Type} [DecidableEq α] {x : Ends α} (distinct : x.first ≠ x.second)
    (a : α) : x.swap.sideAt? a = (x.sideAt? a).map Side.flip := by
  unfold sideAt? swap
  by_cases first : x.first = a
  · have second : x.second ≠ a := fun same => distinct (first.trans same.symm)
    simp [first, second, Side.flip, Side.other]
  · by_cases second : x.second = a <;> simp [first, second, Side.flip, Side.other]

/-- Between ends that join the same elements there is a correspondence of the sides. -/
theorem Ends.exists_turn {α : Type} [DecidableEq α] {x y : Ends α}
    (joins : y.Joins x.first x.second) : ∃ turn : Equiv.Perm Side,
      (∀ side, y.get (turn side) = x.get side) ∧ ∀ a, y.sideAt? a = (x.sideAt? a).map turn := by
  by_cases same : y = x
  · exact ⟨.refl Side, fun side => by rw [same]; rfl, fun a => by rw [same]; simp⟩
  · obtain rfl : y = x.swap := joins.resolve_left same
    refine ⟨Side.flip, fun side => by cases side <;> rfl, fun a => Ends.sideAt?_swap ?_ a⟩
    intro loop
    exact same (congrArg₂ Ends.mk loop.symm loop)

/-- What a symmetry does with the elements of a rule, with the host edges that two applications of
the rule are bound to, and with the ends of edges. -/
structure Turn where
  vertices : Equiv.Perm Nat
  edges : Equiv.Perm Nat
  addedVertices : Equiv.Perm Nat
  addedEdges : Equiv.Perm Nat
  hostEdges : Equiv.Perm EdgeId
  hostSides : EdgeId → Equiv.Perm Side
  addedSides : Nat → Equiv.Perm Side

namespace Turn

def endpoint (t : Turn) : Endpoint → Endpoint
  | .matched i => .matched (t.vertices i)
  | .created k => .created (t.addedVertices k)

def node (t : Turn) : Equiv.Perm NodeOrigin where
  toFun
    | .host v => .host v
    | .created p => .created { p with element := t.addedVertices p.element }
  invFun
    | .host v => .host v
    | .created p => .created { p with element := t.addedVertices.symm p.element }
  left_inv n := by cases n <;> simp
  right_inv n := by cases n <;> simp

def socket (t : Turn) : Equiv.Perm Socket where
  toFun
    | .host e side => .host (t.hostEdges e) (t.hostSides e side)
    | .fresh p side =>
      .fresh { p with element := t.addedEdges p.element } (t.addedSides p.element side)
  invFun
    | .host e side =>
      let e' := t.hostEdges.symm e
      .host e' ((t.hostSides e').symm side)
    | .fresh p side =>
      let k := t.addedEdges.symm p.element
      .fresh { p with element := k } ((t.addedSides k).symm side)
  left_inv s := by cases s <;> simp
  right_inv s := by cases s <;> simp

variable {D : Domain} {host : Host D} {rule : Rule D} {o o' : Occurrence} {t : Turn}

/-- The second application of the rule is bound where the symmetry carries the first one. -/
structure Relates (t : Turn) (host : Host D) (rule : Rule D) (o o' : Occurrence) : Prop where
  vertexFate : ∀ i : Nat, (rule.vertices[t.vertices i]?).map (·.fate.isCut) =
    (rule.vertices[i]?).map (·.fate.isCut)
  edgeFate : ∀ j : Nat, (rule.edges[t.edges j]?).map (·.fate.isCut) =
    (rule.edges[j]?).map (·.fate.isCut)
  vertices : ∀ i : Nat, o'.vertices[t.vertices i]? = o.vertices[i]?
  edges : ∀ j : Nat, o'.edges[t.edges j]? = (o.edges[j]?).map t.hostEdges
  hostEnds : ∀ (e : EdgeId) (side : Side),
    (host.edge? (t.hostEdges e)).map (·.ends.get (t.hostSides e side)) =
      (host.edge? e).map (·.ends.get side)
  sideAt : ∀ (e : EdgeId) (v : VertexId),
    (host.edge? (t.hostEdges e)).bind (·.ends.sideAt? v) =
      ((host.edge? e).bind (·.ends.sideAt? v)).map (t.hostSides e)
  addedVertices : ∀ k : Nat,
    t.addedVertices k < rule.addedVertices.length ↔ k < rule.addedVertices.length
  addedEnds : ∀ (k : Nat) (side : Side),
    (rule.addedEdges[t.addedEdges k]?).map (fun y =>
        (y.ends.get (t.addedSides k side), y.sockets.get (t.addedSides k side))) =
      (rule.addedEdges[k]?).map fun x =>
        (t.endpoint (x.ends.get side), (x.sockets.get side).map t.edges)

end Turn

/-! ## One application -/

section Single

variable {D : Domain} {host : Host D} {r : Resolved D}

theorem cutsVertex_iff_getElem? {v : VertexId} : CutsVertex [r] v ↔
    ∃ i : Nat, (r.rule.vertices[i]?).map (·.fate.isCut) = some true ∧
      r.occurrence.vertices[i]? = some v := by
  simp only [CutsVertex, List.mem_singleton, exists_eq_left]
  exact exists_mem_zip_iff fun vertex : MatchedVertex D => vertex.fate.isCut

theorem cutsEdge_iff_getElem? {e : EdgeId} : CutsEdge [r] e ↔
    ∃ j : Nat, (r.rule.edges[j]?).map (·.fate.isCut) = some true ∧
      r.occurrence.edges[j]? = some e := by
  simp only [CutsEdge, List.mem_singleton, exists_eq_left]
  exact exists_mem_zip_iff fun edge : MatchedEdge D => edge.fate.isCut

theorem eq_of_getElem?_singleton {α : Type} {x y : α} {a : Nat} (found : [x][a]? = some y) :
    a = 0 ∧ y = x := by
  cases a with
  | zero => exact ⟨rfl, (Option.some.inj found).symm⟩
  | succ a => cases found

theorem Blueprint.created_mem_nodes_iff {p : Provenance} :
    .created p ∈ (Blueprint.of host [r]).nodes ↔
      p.rule = r.id ∧ p.element < r.rule.addedVertices.length ∧ p.application = 0 := by
  simp only [mem_nodes_iff, reduceCtorEq, false_and, exists_false, false_or]
  constructor
  · rintro ⟨a, _, k, found, inside, same⟩
    obtain ⟨rfl, rfl⟩ := eq_of_getElem?_singleton found
    cases same
    exact ⟨rfl, inside, rfl⟩
  · obtain ⟨id, k, a⟩ := p
    rintro ⟨rfl, inside, rfl⟩
    exact ⟨0, r, k, rfl, inside, rfl⟩

theorem Resolved.spliced?_matched (i cut : Nat) : r.spliced? host (.matched i) (some cut) =
    (r.occurrence.vertices[i]?).bind fun v => (r.occurrence.edges[cut]?).bind fun e =>
      ((host.edge? e).bind (·.ends.sideAt? v)).map (Socket.host e) := by
  simp only [spliced?, Option.bind_eq_bind, Option.map_eq_bind, Option.bind_assoc]
  rfl

theorem Blueprint.ownerIn_host (batch : List (Resolved D)) (e : EdgeId) (side : Side) :
    ownerIn host batch (.host e side) = ((host.edge? e).map (·.ends.get side)).bind fun v =>
      if CutsVertex batch v then none else some (.host v) := by
  simp only [ownerIn, Option.bind_eq_bind, Option.bind_map]
  rfl

/-- An edge remains where it is not cut and both its sockets still have an owner. -/
theorem Blueprint.remains_iff_owned {batch : List (Resolved D)} {e : EdgeId} :
    Remains host batch e ↔ ¬ CutsEdge batch e ∧
      ∀ side, (ownerIn host batch (.host e side)).isSome = true := by
  cases found : host.edge? e with
  | none =>
    refine iff_of_false ?_ fun owned => ?_
    · rintro ⟨-, record, there, -⟩
      rw [found] at there
      cases there
    · have first := owned.2 .first
      rw [ownerIn_host, found] at first
      cases first
  | some record =>
    rw [remains_iff found]
    refine and_congr_right fun _ => forall_congr' fun side => ?_
    rw [ownerIn_host, found, Option.map_some, Option.bind_some]
    split <;> simp [*]

end Single

/-! ## The symmetry carried along -/

namespace Turn.Relates

variable {D : Domain} {host : Host D} {rule : Rule D} {o o' : Occurrence} {t : Turn}

theorem cutsVertex_iff (h : t.Relates host rule o o') {v : VertexId} :
    CutsVertex [⟨rule, o'⟩] v ↔ CutsVertex [⟨rule, o⟩] v := by
  rw [cutsVertex_iff_getElem?, cutsVertex_iff_getElem?]
  refine (t.vertices.exists_congr fun i => ?_).symm
  rw [h.vertexFate, h.vertices]

theorem cutsEdge_iff (h : t.Relates host rule o o') {e : EdgeId} :
    CutsEdge [⟨rule, o'⟩] (t.hostEdges e) ↔ CutsEdge [⟨rule, o⟩] e := by
  rw [cutsEdge_iff_getElem?, cutsEdge_iff_getElem?]
  refine (t.edges.exists_congr fun j => ?_).symm
  rw [h.edgeFate, h.edges]
  exact and_congr_right fun _ => (Option.map_injective t.hostEdges.injective).eq_iff.symm

theorem node? (h : t.Relates host rule o o') (a : Nat) (endpoint : Endpoint) :
    (Resolved.mk rule o').node? a (t.endpoint endpoint) =
      ((Resolved.mk rule o).node? a endpoint).map t.node := by
  cases endpoint with
  | matched i =>
    change (o'.vertices[t.vertices i]?).map NodeOrigin.host = _
    rw [h.vertices, Resolved.node?, Option.map_map]
    rfl
  | created k =>
    simp only [endpoint, Resolved.node?, h.addedVertices]
    split <;> rfl

theorem spliced? (h : t.Relates host rule o o') (endpoint : Endpoint) (socket : Option Nat) :
    (Resolved.mk rule o').spliced? host (t.endpoint endpoint) (socket.map t.edges) =
      ((Resolved.mk rule o).spliced? host endpoint socket).map t.socket := by
  cases endpoint with
  | created k => rfl
  | matched i =>
    cases socket with
    | none => rfl
    | some cut =>
      change (Resolved.mk rule o').spliced? host (.matched (t.vertices i)) (some (t.edges cut)) = _
      rw [Resolved.spliced?_matched, Resolved.spliced?_matched, h.vertices, h.edges]
      cases o.vertices[i]? with
      | none => rfl
      | some v =>
        cases o.edges[cut]? with
        | none => rfl
        | some e =>
          simp only [Option.bind_some, Option.map_some, h.sideAt, Option.map_map]
          rfl

theorem exists_addedEdge (h : t.Relates host rule o o') {k : Nat} {x : AddedEdge D}
    (found : rule.addedEdges[k]? = some x) :
    ∃ y, rule.addedEdges[t.addedEdges k]? = some y ∧ ∀ side,
      y.ends.get (t.addedSides k side) = t.endpoint (x.ends.get side) ∧
      y.sockets.get (t.addedSides k side) = (x.sockets.get side).map t.edges := by
  have each (side : Side) := h.addedEnds k side
  simp only [found, Option.map_some, Option.map_eq_some_iff, Prod.mk.injEq] at each
  obtain ⟨y, there, -⟩ := each .first
  refine ⟨y, there, fun side => ?_⟩
  obtain ⟨y', there', same⟩ := each side
  cases there.symm.trans there'
  exact same

theorem addedEdge_eq_none (h : t.Relates host rule o o') {k : Nat}
    (missing : rule.addedEdges[k]? = none) : rule.addedEdges[t.addedEdges k]? = none := by
  have ends := h.addedEnds k .first
  rwa [missing, Option.map_none, Option.map_eq_none_iff] at ends

theorem socket (h : t.Relates host rule o o') (a k : Nat) {x y : AddedEdge D} {side : Side}
    (ends : y.ends.get (t.addedSides k side) = t.endpoint (x.ends.get side))
    (sockets : y.sockets.get (t.addedSides k side) = (x.sockets.get side).map t.edges) :
    (Resolved.mk rule o').socket host a (t.addedEdges k) y (t.addedSides k side) =
      t.socket ((Resolved.mk rule o).socket host a k x side) := by
  unfold Resolved.socket
  rw [ends, sockets, h.spliced?]
  cases (Resolved.mk rule o).spliced? host (x.ends.get side) (x.sockets.get side) <;> rfl

theorem ownerIn (h : t.Relates host rule o o') (s : Socket) :
    Blueprint.ownerIn host [⟨rule, o'⟩] (t.socket s) =
      (Blueprint.ownerIn host [⟨rule, o⟩] s).map t.node := by
  cases s with
  | host e side =>
    change Blueprint.ownerIn host [⟨rule, o'⟩] (.host (t.hostEdges e) (t.hostSides e side)) = _
    rw [Blueprint.ownerIn_host, Blueprint.ownerIn_host, h.hostEnds]
    cases (host.edge? e).map (·.ends.get side) with
    | none => rfl
    | some v =>
      simp only [Option.bind_some, h.cutsVertex_iff]
      split <;> rfl
  | fresh p side =>
    obtain ⟨id, k, a⟩ := p
    change Blueprint.ownerIn host [⟨rule, o'⟩]
      (.fresh ⟨id, t.addedEdges k, a⟩ (t.addedSides k side)) = _
    cases a with
    | succ a => rfl
    | zero =>
      simp only [Blueprint.ownerIn, List.getElem?_cons_zero, Option.bind_eq_bind, Option.bind_some]
      cases found : rule.addedEdges[k]? with
      | none =>
        rw [h.addedEdge_eq_none found]
        rfl
      | some x =>
        obtain ⟨y, there, same⟩ := h.exists_addedEdge found
        obtain ⟨ends, sockets⟩ := same side
        simp only [there, Option.bind_some, ends, sockets, h.spliced?, Option.map_eq_none_iff,
          h.node?, Resolved.id]
        by_cases own : id = rule.id ∧ (Resolved.mk rule o).spliced? host (x.ends.get side)
            (x.sockets.get side) = none
        · simp only [own, and_self, if_true]
        · simp only [own, if_false, Option.map_none]

theorem remains_iff (h : t.Relates host rule o o') {e : EdgeId} :
    Blueprint.Remains host [⟨rule, o'⟩] (t.hostEdges e) ↔
      Blueprint.Remains host [⟨rule, o⟩] e := by
  rw [Blueprint.remains_iff_owned, Blueprint.remains_iff_owned, h.cutsEdge_iff]
  refine and_congr_right fun _ => ((t.hostSides e).forall_congr fun side => ?_).symm
  have owner := h.ownerIn (.host e side)
  change Blueprint.ownerIn host _ (.host (t.hostEdges e) (t.hostSides e side)) = _ at owner
  rw [owner, Option.isSome_map]

/-! ## The blueprints -/

theorem mem_nodes_iff (h : t.Relates host rule o o') (n : NodeOrigin) :
    t.node n ∈ (Blueprint.of host [⟨rule, o'⟩]).nodes ↔
      n ∈ (Blueprint.of host [⟨rule, o⟩]).nodes := by
  cases n with
  | host v =>
    change NodeOrigin.host v ∈ _ ↔ _
    rw [Blueprint.host_mem_nodes_iff, Blueprint.host_mem_nodes_iff, h.cutsVertex_iff]
  | created p =>
    change NodeOrigin.created { p with element := t.addedVertices p.element } ∈ _ ↔ _
    rw [Blueprint.created_mem_nodes_iff, Blueprint.created_mem_nodes_iff]
    exact and_congr_right fun _ => and_congr_left fun _ => h.addedVertices p.element

theorem alike_hostLink (t : Turn) (e : EdgeId) :
    Strand.Alike t.socket ⟨.host e, ⟨.host e .first, .host e .second⟩⟩
      ⟨.host (t.hostEdges e), ⟨.host (t.hostEdges e) .first, .host (t.hostEdges e) .second⟩⟩ := by
  have own (d : EdgeId) (side : Side) :
      (Ends.mk (Socket.host d .first) (Socket.host d .second)).get side = .host d side := by
    cases side <;> rfl
  refine ⟨rfl, Ends.joins_of_get (y := Ends.map t.socket _) (t.hostSides e) fun side => ?_⟩
  rw [Ends.get_map, own, own]
  rfl

theorem alike_strand (h : t.Relates host rule o o') (a : Nat) {k : Nat} {x y : AddedEdge D}
    (found : rule.addedEdges[k]? = some x) (there : rule.addedEdges[t.addedEdges k]? = some y) :
    Strand.Alike t.socket ((Resolved.mk rule o).strand host a (x, k))
      ((Resolved.mk rule o').strand host a (y, t.addedEdges k)) := by
  obtain ⟨_, there', same⟩ := h.exists_addedEdge found
  cases there.symm.trans there'
  refine ⟨rfl, Ends.joins_of_get (y := Ends.map t.socket _) (t.addedSides k) fun side => ?_⟩
  rw [Ends.get_map, Blueprint.strand_get, Blueprint.strand_get]
  exact h.socket a k (same side).1 (same side).2

theorem corresponds (h : t.Relates host rule o o') :
    Blueprint.Corresponds t.node t.socket (.of host [⟨rule, o⟩]) (.of host [⟨rule, o'⟩]) where
  host _ := rfl
  nodes := h.mem_nodes_iff
  owner := h.ownerIn
  link x hx := by
    rcases Blueprint.mem_links_iff.mp hx with ⟨e, rfl, remains⟩ | ⟨a, r, k, x, hr, found, rfl⟩
    · exact ⟨_, Blueprint.mem_links_iff.mpr (.inl ⟨_, rfl, h.remains_iff.mpr remains⟩),
        alike_hostLink t e⟩
    · obtain ⟨rfl, rfl⟩ := eq_of_getElem?_singleton hr
      obtain ⟨y, there, -⟩ := h.exists_addedEdge found
      exact ⟨_, Blueprint.mem_links_iff.mpr (.inr ⟨0, _, _, y, rfl, there, rfl⟩),
        h.alike_strand 0 found there⟩
  onto y hy := by
    rcases Blueprint.mem_links_iff.mp hy with ⟨e', rfl, remains⟩ | ⟨a, r, k', y, hr, there, rfl⟩
    · obtain ⟨e, rfl⟩ := t.hostEdges.surjective e'
      exact ⟨_, Blueprint.mem_links_iff.mpr (.inl ⟨_, rfl, h.remains_iff.mp remains⟩),
        alike_hostLink t e⟩
    · obtain ⟨rfl, rfl⟩ := eq_of_getElem?_singleton hr
      obtain ⟨k, rfl⟩ := t.addedEdges.surjective k'
      cases found : rule.addedEdges[k]? with
      | none =>
        rw [h.addedEdge_eq_none found] at there
        cases there
      | some x =>
        exact ⟨_, Blueprint.mem_links_iff.mpr (.inr ⟨0, _, _, x, rfl, found, rfl⟩),
          h.alike_strand 0 found there⟩
  front := by
    apply Blueprint.sameFront_nodes
    unfold Blueprint.hostNodes
    simp only [h.cutsVertex_iff]

end Turn.Relates

end GraphSplice
