import GraphSplice.Proofs.Blueprint.Cutting
import GraphSplice.Proofs.Lists

/-!
Insertion. An application is stale exactly when it adds an edge to a vertex that was cut; after
all insertions the wiring realizes the whole blueprint.
-/

namespace GraphSplice

open Wiring

variable {D : Domain} {host : Host D} {batch : List (Resolved D)}

namespace Blueprint

variable {r : Resolved D} {a k : Nat} {x : AddedEdge D}

theorem ownerIn_fresh (hr : batch[a]? = some r) (hx : r.rule.addedEdges[k]? = some x) (side : Side) :
    ownerIn host batch (.fresh ⟨r.id, k, a⟩ side) =
      if r.spliced? host (x.ends.get side) (x.sockets.get side) = none
      then r.node? a (x.ends.get side) else none := by
  simp [ownerIn, hr, hx]

variable (host batch) in
/-- The sockets that are there before added edge `k` of application `a`. -/
def Present (a k : Nat) : Socket → Prop
  | .host e side => HostPresent host batch (.host e side)
  | .fresh p side => (ownerIn host batch (.fresh p side)).isSome = true ∧
      (p.application < a ∨ (p.application = a ∧ p.element < k))

theorem present_succ (hr : batch[a]? = some r) (hx : r.rule.addedEdges[k]? = some x)
    (owned : ∀ side, (r.node? a (x.ends.get side)).isSome = true) (s : Socket) :
    Present host batch a (k + 1) s ↔ Present host batch a k s ∨
      ∃ side, r.spliced? host (x.ends.get side) (x.sockets.get side) = none ∧
        s = .fresh ⟨r.id, k, a⟩ side := by
  cases s with
  | host e side => simp [Present]
  | fresh p side =>
    simp only [Present]
    constructor
    · rintro ⟨some, earlier | ⟨rfl, below⟩⟩
      · exact .inl ⟨some, .inl earlier⟩
      · rcases Nat.lt_succ_iff_lt_or_eq.mp below with less | rfl
        · exact .inl ⟨some, .inr ⟨rfl, less⟩⟩
        · refine .inr ⟨side, ?_⟩
          simp only [ownerIn, hr, hx, Option.bind_eq_bind, Option.bind_some] at some
          split at some
          · next both =>
            refine ⟨both.2, ?_⟩
            rw [← both.1]
          · cases some
    · rintro (⟨some, earlier | ⟨same, less⟩⟩ | ⟨side', free, same⟩)
      · exact ⟨some, .inl earlier⟩
      · exact ⟨some, .inr ⟨same, Nat.lt_succ_of_lt less⟩⟩
      · cases same
        rw [ownerIn_fresh hr hx, if_pos free]
        exact ⟨owned side, .inr ⟨rfl, Nat.lt_succ_self k⟩⟩

/-- After the last added edge of an application comes the next application. -/
theorem present_next (hr : batch[a]? = some r) (s : Socket) :
    Present host batch a r.rule.addedEdges.length s ↔ Present host batch (a + 1) 0 s := by
  cases s with
  | host e side => exact Iff.rfl
  | fresh p side =>
    simp only [Present]
    constructor
    · rintro ⟨some, earlier | ⟨same, -⟩⟩
      · exact ⟨some, .inl (by omega)⟩
      · exact ⟨some, .inl (by omega)⟩
    · rintro ⟨some, earlier | ⟨-, absurd⟩⟩
      · refine ⟨some, ?_⟩
        rcases Nat.lt_succ_iff_lt_or_eq.mp earlier with less | same
        · exact .inl less
        · refine .inr ⟨same, ?_⟩
          rw [Option.isSome_iff_exists] at some
          obtain ⟨n, owns⟩ := some
          simp only [ownerIn, same, hr, Option.bind_eq_bind, Option.bind_some,
            Option.bind_eq_some_iff] at owns
          obtain ⟨x, found, -⟩ := owns
          exact (List.getElem?_eq_some_iff.mp found).1
      · cases absurd

end Blueprint

namespace Insertion

open Blueprint

variable {r : Resolved D} {a : Nat} {o : Outline} {L : Layout} {w : Wiring}

/-- What is there stays where it is, and nodes and links stay as they are. -/
structure Extends (o : Outline) (L : Layout) (o' : Outline) (L' : Layout) : Prop where
  nodes : o'.nodes = o.nodes
  links : o'.links = o.links
  node : L'.node = L.node
  link : L'.link = L.link
  socket : ∀ s, o.present s → o'.present s ∧ L'.socket s = L.socket s

/-- What the insertion of an application can rely on. -/
structure Ready (host : Host D) (batch : List (Resolved D)) (r : Resolved D) (a firstNode : Nat)
    (o : Outline) (L : Layout) : Prop where
  hostNodes : ∀ v, host.Contains v → (.host v ∈ o.nodes ↔ ¬ CutsVertex batch v)
  hostSockets : ∀ e side, o.present (.host e side) ↔ HostPresent host batch (.host e side)
  created : ∀ k < r.rule.addedVertices.length,
    .created ⟨r.id, k, a⟩ ∈ o.nodes ∧ L.node (.created ⟨r.id, k, a⟩) = firstNode + k

variable {firstNode : Nat}

/-- What is there once the socket for one end of an added edge has been found at `j`: a fresh one,
unless the end is spliced. -/
structure Landing (host : Host D) (batch : List (Resolved D)) (spliced? : Option Socket)
    (fresh : Socket) (o : Outline) (L : Layout) (o' : Outline) (L' : Layout) (w : Wiring)
    (j : JointId) : Prop where
  real : Realizes host (ownerIn host batch) o' L' w
  extended : Extends o L o' L'
  present : ∀ s, o'.present s ↔ o.present s ∨ (spliced? = none ∧ s = fresh)
  there : o'.present (spliced?.getD fresh)
  place : L'.socket (spliced?.getD fresh) = j

section Landing

variable (real : Realizes host (ownerIn host batch) o L w)

include real

theorem exists_landing_fresh {p : Provenance} {side : Side} {n : NodeOrigin}
    (fresh : ¬ o.present (.fresh p side)) (owns : ownerIn host batch (.fresh p side) = some n)
    (hn : n ∈ o.nodes) : ∃ o' L', Landing host batch none (.fresh p side) o L o' L'
      (w.addSocket (L.node n) .fresh) w.nextJoint := by
  refine ⟨_, _, real.addFresh fresh owns hn, ⟨rfl, rfl, rfl, rfl, ?_⟩, by simp, .inr rfl,
    Function.update_self ..⟩
  intro s hs
  refine ⟨.inl hs, Function.update_of_ne ?_ ..⟩
  rintro rfl
  exact fresh hs

theorem landing_spliced {s : Socket} (fresh : Socket) (present : o.present s) :
    Landing host batch (some s) fresh o L o L w (L.socket s) :=
  ⟨real, ⟨rfl, rfl, rfl, rfl, fun _ hs => ⟨hs, rfl⟩⟩, by simp, present, rfl⟩

variable (ready : Ready host batch r a firstNode o L)

include ready

/-- The node of a host vertex is missing when the batch cuts the vertex. -/
theorem hostNode?_spec {v : VertexId} (contained : host.Contains v) :
    match w.hostNode? v with
    | none => CutsVertex batch v
    | some j => ¬ CutsVertex batch v ∧ .host v ∈ o.nodes ∧ L.node (.host v) = j := by
  cases found : w.hostNode? v with
  | none =>
    by_contra kept
    rw [real.hostNode?_eq_some_iff.mpr ⟨(ready.hostNodes v contained).mpr kept, rfl⟩] at found
    cases found
  | some j =>
    obtain ⟨mem, place⟩ := real.hostNode?_eq_some_iff.mp found
    exact ⟨(ready.hostNodes v contained).mp mem, mem, place⟩

/-- The socket of a host edge is missing when the batch cuts its vertex. -/
theorem hostSocket?_spec {e : EdgeId} {record : Edge D.Arc} (there : host.edge? e = some record)
    (side : Side) :
    match w.hostSocket? e side with
    | none => CutsVertex batch (record.ends.get side)
    | some j => ¬ CutsVertex batch (record.ends.get side) ∧ o.present (.host e side) ∧
        L.socket (.host e side) = j := by
  have present_iff : o.present (.host e side) ↔ ¬ CutsVertex batch (record.ends.get side) := by
    rw [ready.hostSockets, hostPresent_iff, there]
    simp
  cases found : w.hostSocket? e side with
  | none =>
    by_contra kept
    rw [real.hostSocket?_eq_some_iff.mpr ⟨present_iff.mpr kept, rfl⟩] at found
    cases found
  | some j =>
    obtain ⟨present, place⟩ := real.hostSocket?_eq_some_iff.mp found
    exact ⟨present_iff.mp present, present, place⟩

/-- Looking up the socket for one end of an added edge, and adding it if it is a fresh one. -/
theorem socketFor_spec (valid : r.Valid host) {endpoint : Endpoint} {socket : Option Nat}
    (anchors : r.rule.Anchors endpoint socket) {p : Provenance} {side : Side}
    (fresh : ¬ o.present (.fresh p side))
    (owns : r.spliced? host endpoint socket = none →
      ownerIn host batch (.fresh p side) = r.node? a endpoint) :
    match socketFor host r firstNode w endpoint socket with
    | none => r.Blocked batch endpoint
    | some (w', j) => ¬ r.Blocked batch endpoint ∧ ∃ o' L',
        Landing host batch (r.spliced? host endpoint socket) (.fresh p side) o L o' L' w' j := by
  cases endpoint with
  | created k =>
    obtain ⟨inside, rfl⟩ := anchors
    obtain ⟨mem, place⟩ := ready.created k inside
    simp only [socketFor, if_pos inside, ← place]
    exact ⟨id, exists_landing_fresh real fresh ((owns rfl).trans (if_pos inside)) mem⟩
  | matched i =>
    obtain ⟨v, hv, contained⟩ := Resolved.vertex_of_anchors valid anchors
    have blocked : r.Blocked batch (.matched i) ↔ CutsVertex batch v := by
      simp [Resolved.Blocked, hv]
    rw [blocked]
    cases socket with
    | none =>
      have node := hostNode?_spec real ready contained
      simp only [socketFor, hv, Option.bind_eq_bind, Option.bind_some]
      cases found : w.hostNode? v with
      | none =>
        rw [found] at node
        exact node
      | some j =>
        rw [found] at node
        obtain ⟨kept, mem, rfl⟩ := node
        have owned : r.node? a (.matched i) = some (.host v) := by simp [Resolved.node?, hv]
        exact ⟨kept, exists_landing_fresh real fresh ((owns rfl).trans owned) mem⟩
    | some c =>
      obtain ⟨e, record, side', he, there, located, spliced⟩ :=
        Resolved.spliced?_of_anchors valid anchors hv
      have socket := hostSocket?_spec real ready there side'
      rw [Ends.get_of_sideAt? located] at socket
      simp only [socketFor, hv, he, there, located, Option.bind_eq_bind, Option.bind_some]
      rw [spliced]
      cases found : w.hostSocket? e side' with
      | none =>
        rw [found] at socket
        exact socket
      | some j =>
        rw [found] at socket
        obtain ⟨kept, present, rfl⟩ := socket
        exact ⟨kept, o, L, landing_spliced real _ present⟩

end Landing

theorem Ready.extend (ready : Ready host batch r a firstNode o L) {o' : Outline} {L' : Layout}
    (extended : Extends o L o' L')
    (hosts : ∀ e side, o'.present (.host e side) ↔ o.present (.host e side)) :
    Ready host batch r a firstNode o' L' := by
  refine ⟨?_, ?_, ?_⟩
  · rw [extended.nodes]
    exact ready.hostNodes
  · exact fun e side => (hosts e side).trans (ready.hostSockets e side)
  · rw [extended.nodes, extended.node]
    exact ready.created

theorem not_present_self (k : Nat) (side : Side) :
    ¬ Present host batch a k (.fresh ⟨r.id, k, a⟩ side) := by
  rintro ⟨-, earlier | ⟨-, earlier⟩⟩
  · exact Nat.lt_irrefl _ earlier
  · exact Nat.lt_irrefl _ earlier

variable {nodes : List NodeOrigin} {links : List Strand}

theorem node?_isSome (valid : r.Valid host) {endpoint : Endpoint} {socket : Option Nat}
    (anchors : r.rule.Anchors endpoint socket) : (r.node? a endpoint).isSome = true := by
  cases endpoint with
  | matched i =>
    obtain ⟨v, hv, -⟩ := Resolved.vertex_of_anchors valid anchors
    simp [Resolved.node?, hv]
  | created k => simp [Resolved.node?, anchors.1]

theorem addEdge_eq (x : AddedEdge D) (k : Nat) : addEdge host r a firstNode w (x, k) =
    (socketFor host r firstNode w (x.ends.get .first) (x.sockets.get .first)).bind fun y =>
      (socketFor host r firstNode y.1 (x.ends.get .second) (x.sockets.get .second)).bind fun z =>
        some (z.1.addLink y.2 z.2 (.created ⟨r.id, k, a⟩)) := rfl

/-- Inserting one added edge. -/
theorem addEdge_spec {k : Nat} {x : AddedEdge D}
    (real : Realizes host (ownerIn host batch) ⟨nodes, Present host batch a k, links⟩ L w)
    (valid : r.Valid host)
    (ready : Ready host batch r a firstNode ⟨nodes, Present host batch a k, links⟩ L)
    (hr : batch[a]? = some r) (hx : r.rule.addedEdges[k]? = some x)
    (unused : ∀ y ∈ links, y.origin ≠ .created ⟨r.id, k, a⟩) :
    match addEdge host r a firstNode w (x, k) with
    | none => ∃ side, r.Blocked batch (x.ends.get side)
    | some w' => (∀ side, ¬ r.Blocked batch (x.ends.get side)) ∧ ∃ L',
        Realizes host (ownerIn host batch)
          ⟨nodes, Present host batch a (k + 1), links ++ [r.strand host a (x, k)]⟩ L' w' ∧
        L'.node = L.node := by
  have anchors := (valid.rule.added x (List.mem_of_getElem? hx)).2
  have owns : ∀ side, r.spliced? host (x.ends.get side) (x.sockets.get side) = none →
      ownerIn host batch (.fresh ⟨r.id, k, a⟩ side) = r.node? a (x.ends.get side) := by
    intro side free
    rw [ownerIn_fresh hr hx, if_pos free]
  have first := socketFor_spec real ready valid (anchors .first) (not_present_self k .first)
    (owns .first)
  rw [addEdge_eq]
  cases foundFirst : socketFor host r firstNode w (x.ends.get .first) (x.sockets.get .first) with
  | none =>
    rw [foundFirst] at first
    exact ⟨.first, first⟩
  | some result₁ =>
    obtain ⟨w₁, j₁⟩ := result₁
    rw [foundFirst] at first
    obtain ⟨open₁, o₁, L₁, landing₁⟩ := first
    have free₁ : ¬ o₁.present (.fresh ⟨r.id, k, a⟩ .second) := by
      rw [landing₁.present]
      rintro (old | ⟨-, same⟩)
      · exact not_present_self k .second old
      · cases same
    have ready₁ : Ready host batch r a firstNode o₁ L₁ :=
      ready.extend landing₁.extended fun e side => by simp [landing₁.present]
    have second := socketFor_spec landing₁.real ready₁ valid (anchors .second) free₁
      (owns .second)
    rw [Option.bind_some]
    cases foundSecond : socketFor host r firstNode w₁ (x.ends.get .second)
      (x.sockets.get .second) with
    | none =>
      rw [foundSecond] at second
      exact ⟨.second, second⟩
    | some result₂ =>
      obtain ⟨w₂, j₂⟩ := result₂
      rw [foundSecond] at second
      obtain ⟨open₂, o₂, L₂, landing₂⟩ := second
      obtain ⟨stays, keeps⟩ := landing₂.extended.socket _ landing₁.there
      have linked := landing₂.real.addLink (x := r.strand host a (x, k))
        (Side.forall_iff.mpr ⟨stays, landing₂.there⟩)
        (by rw [landing₂.extended.links, landing₁.extended.links]; exact unused)
      have placeFirst : L₂.socket (r.socket host a k x .first) = j₁ := keeps.trans landing₁.place
      have placeSecond : L₂.socket (r.socket host a k x .second) = j₂ := landing₂.place
      simp only [Resolved.strand, placeFirst, placeSecond, landing₂.extended.nodes,
        landing₁.extended.nodes, landing₂.extended.links, landing₁.extended.links] at linked
      refine ⟨Side.forall_iff.mpr ⟨open₁, open₂⟩, _, linked.congr_present fun s => ?_,
        landing₂.extended.node.trans landing₁.extended.node⟩
      dsimp only
      rw [landing₂.present, landing₁.present,
        present_succ hr hx (fun side => node?_isSome valid (anchors side)), or_assoc,
        Side.exists_iff]

variable (firstNode nodes links) in
theorem addEdges_spec (valid : r.Valid host) (hr : batch[a]? = some r)
    (unused : ∀ y ∈ links, ∀ k, y.origin ≠ .created ⟨r.id, k, a⟩)
    (todo : List (AddedEdge D × Nat)) :
    ∀ (done : List (AddedEdge D × Nat)) (L : Layout) (w : Wiring),
      r.rule.addedEdges.zipIdx = done ++ todo →
      Realizes host (ownerIn host batch)
        ⟨nodes, Present host batch a done.length, links ++ done.map (r.strand host a)⟩ L w →
      Ready host batch r a firstNode
        ⟨nodes, Present host batch a done.length, links ++ done.map (r.strand host a)⟩ L →
      match todo.foldlM (addEdge host r a firstNode) w with
      | none => ∃ x ∈ todo, ∃ side, r.Blocked batch (x.1.ends.get side)
      | some w' => (∀ x ∈ todo, ∀ side, ¬ r.Blocked batch (x.1.ends.get side)) ∧ ∃ L',
          Realizes host (ownerIn host batch)
            ⟨nodes, Present host batch a r.rule.addedEdges.length, links ++ r.addedLinks host a⟩
            L' w' := by
  induction todo with
  | nil =>
    intro done L w split real ready
    rw [List.append_nil] at split
    have all : done.length = r.rule.addedEdges.length := by rw [← split, List.length_zipIdx]
    refine ⟨by simp, L, ?_⟩
    rw [all] at real
    rw [Resolved.addedLinks, split]
    exact real
  | cons x rest ih =>
    intro done L w split real ready
    obtain ⟨x, k⟩ := x
    obtain ⟨place, found, before⟩ := zipIdx_split split
    subst place
    have fresh : ∀ y ∈ links ++ done.map (r.strand host a),
        y.origin ≠ .created ⟨r.id, done.length, a⟩ := by
      intro y hy
      rcases List.mem_append.mp hy with old | new
      · exact unused y old _
      · obtain ⟨z, hz, rfl⟩ := List.mem_map.mp new
        have less := ((before z.1 z.2).mp hz).2
        intro same
        simp only [Resolved.strand, LinkOrigin.created.injEq, Provenance.mk.injEq] at same
        omega
    have step := addEdge_spec real valid ready hr found fresh
    rw [List.foldlM_cons]
    cases inserted : addEdge host r a firstNode w (x, done.length) with
    | none =>
      rw [inserted] at step
      obtain ⟨side, blocked⟩ := step
      exact ⟨_, List.mem_cons_self, side, blocked⟩
    | some w₁ =>
      rw [inserted] at step
      obtain ⟨unblocked, L₁, real₁, sameNodes⟩ := step
      have longer : (done ++ [(x, done.length)]).length = done.length + 1 := by simp
      have more : links ++ (done ++ [(x, done.length)]).map (r.strand host a) =
          links ++ done.map (r.strand host a) ++ [r.strand host a (x, done.length)] := by simp
      rw [← longer, ← more] at real₁
      have ready₁ : Ready host batch r a firstNode ⟨nodes,
          Present host batch a (done ++ [(x, done.length)]).length,
          links ++ (done ++ [(x, done.length)]).map (r.strand host a)⟩ L₁ := by
        refine ⟨ready.hostNodes, fun _ _ => Iff.rfl, ?_⟩
        rw [sameNodes]
        exact ready.created
      have later := ih (done ++ [(x, done.length)]) L₁ w₁ (by simp [split]) real₁ ready₁
      simp only [Option.bind_eq_bind, Option.bind_some]
      cases finished : rest.foldlM (addEdge host r a firstNode) w₁ with
      | none =>
        rw [finished] at later
        obtain ⟨y, hy, side, blocked⟩ := later
        exact ⟨y, List.mem_cons_of_mem _ hy, side, blocked⟩
      | some w₂ =>
        rw [finished] at later
        obtain ⟨unblocked', L', real'⟩ := later
        refine ⟨?_, L', real'⟩
        intro y hy
        rcases List.mem_cons.mp hy with rfl | hy
        · exact unblocked
        · exact unblocked' y hy

/-- The added vertices take the next positions, in order. -/
theorem addNodes_spec {owner : Socket → Option NodeOrigin} {present : Socket → Prop}
    (real : Realizes host owner ⟨nodes, present, links⟩ L w)
    (unused : ∀ k, .created ⟨r.id, k, a⟩ ∉ nodes) : ∃ L',
      Realizes host owner ⟨nodes ++ r.addedNodes a, present, links⟩ L' (addNodes r a w) ∧
      ∀ k < r.rule.addedVertices.length, L'.node (.created ⟨r.id, k, a⟩) = w.nextJoint + k := by
  unfold addNodes Resolved.addedNodes
  have all : ∀ n, ∃ L', Realizes host owner
      ⟨nodes ++ (List.range n).map fun k => .created ⟨r.id, k, a⟩, present, links⟩ L'
      ((List.range n).foldl (fun w k => w.addNode (.created ⟨r.id, k, a⟩)) w) ∧
      ((List.range n).foldl (fun w k => w.addNode (.created ⟨r.id, k, a⟩)) w).nextJoint =
        w.nextJoint + n ∧
      ∀ k < n, L'.node (.created ⟨r.id, k, a⟩) = w.nextJoint + k := by
    intro n
    induction n with
    | zero => exact ⟨L, by simpa using real, rfl, by simp⟩
    | succ n ih =>
      obtain ⟨L', real', next, places⟩ := ih
      have fresh : .created ⟨r.id, n, a⟩ ∉
          nodes ++ (List.range n).map fun k => NodeOrigin.created ⟨r.id, k, a⟩ := by
        rw [List.mem_append]
        rintro (old | new)
        · exact unused n old
        · obtain ⟨k, hk, same⟩ := List.mem_map.mp new
          cases same
          exact Nat.lt_irrefl _ (List.mem_range.mp hk)
      have added := real'.addNode fresh
      rw [List.range_succ, List.foldl_append, List.map_append, ← List.append_assoc]
      refine ⟨_, added, ?_, ?_⟩
      · simp only [List.foldl_cons, List.foldl_nil, Wiring.addNode]
        rw [nextJoint, size_addJoint]
        exact congrArg (· + 1) next
      · intro k hk
        simp only
        rcases Nat.lt_succ_iff_lt_or_eq.mp hk with less | rfl
        · rw [Function.update_of_ne]
          · exact places k less
          · intro same
            cases same
            exact Nat.lt_irrefl _ less
        · rw [Function.update_self]
          exact next
  obtain ⟨L', real', -, places⟩ := all r.rule.addedVertices.length
  exact ⟨L', real', places⟩

/-- Inserting one application. -/
theorem apply_spec
    (real : Realizes host (ownerIn host batch) ⟨nodes, Present host batch a 0, links⟩ L w)
    (valid : r.Valid host) (hr : batch[a]? = some r)
    (hostNodes : ∀ v, host.Contains v → (.host v ∈ nodes ↔ ¬ CutsVertex batch v))
    (unusedNodes : ∀ k, .created ⟨r.id, k, a⟩ ∉ nodes)
    (unusedLinks : ∀ y ∈ links, ∀ k, y.origin ≠ .created ⟨r.id, k, a⟩) :
    match apply host r a w with
    | none => r.Stale batch
    | some w' => ¬ r.Stale batch ∧ ∃ L', Realizes host (ownerIn host batch)
        ⟨nodes ++ r.addedNodes a, Present host batch (a + 1) 0, links ++ r.addedLinks host a⟩
        L' w' := by
  obtain ⟨L₁, real₁, places⟩ := addNodes_spec real unusedNodes
  have ready : Ready host batch r a w.nextJoint
      ⟨nodes ++ r.addedNodes a, Present host batch a 0, links⟩ L₁ := by
    refine ⟨?_, fun _ _ => Iff.rfl, ?_⟩
    · intro v contained
      rw [← hostNodes v contained, List.mem_append]
      simp [Resolved.addedNodes]
    · intro k hk
      refine ⟨List.mem_append_right _ ?_, places k hk⟩
      exact List.mem_map.mpr ⟨k, List.mem_range.mpr hk, rfl⟩
  have inserted := addEdges_spec w.nextJoint (nodes ++ r.addedNodes a) links valid hr unusedLinks
    r.rule.addedEdges.zipIdx [] L₁ (addNodes r a w) rfl (by simpa using real₁) (by simpa using ready)
  have mem_iff : ∀ x : AddedEdge D, (∃ k, (x, k) ∈ r.rule.addedEdges.zipIdx) ↔
      x ∈ r.rule.addedEdges := by
    intro x
    constructor
    · rintro ⟨k, hk⟩
      exact List.mem_of_getElem? (List.mem_zipIdx_iff_getElem?.mp hk)
    · intro hx
      obtain ⟨k, hk⟩ := List.getElem?_of_mem hx
      exact ⟨k, List.mem_zipIdx_iff_getElem?.mpr hk⟩
  unfold apply
  cases finished : r.rule.addedEdges.zipIdx.foldlM (addEdge host r a w.nextJoint)
      (addNodes r a w) with
  | none =>
    rw [finished] at inserted
    obtain ⟨⟨x, k⟩, hx, side, blocked⟩ := inserted
    exact ⟨x, (mem_iff x).mp ⟨k, hx⟩, side, blocked⟩
  | some w' =>
    rw [finished] at inserted
    obtain ⟨unblocked, L', real'⟩ := inserted
    refine ⟨?_, L', ?_⟩
    · rintro ⟨x, hx, side, blocked⟩
      obtain ⟨k, hk⟩ := (mem_iff x).mpr hx
      exact unblocked _ hk side blocked
    · exact real'.congr_present (present_next hr)

/-- One step of `applyAll`. -/
def applyNumbered (host : Host D) (w : Wiring) (x : Resolved D × Nat) : Except ApplyError Wiring :=
  match apply host x.1 x.2 w with
  | none => .error (.stale x.1.id x.2)
  | some w => .ok w

/-- The blueprint with the additions of the applications `done`. -/
def outlineAfter (host : Host D) (batch : List (Resolved D)) (done : List (Resolved D × Nat)) :
    Outline :=
  ⟨hostNodes host batch ++ done.flatMap fun x => x.1.addedNodes x.2,
    Present host batch done.length 0,
    hostLinks host batch ++ done.flatMap fun x => x.1.addedLinks host x.2⟩

theorem apply_after {done : List (Resolved D × Nat)} (valid : r.Valid host)
    (found : batch[done.length]? = some r) (before : ∀ x ∈ done, x.2 < done.length)
    (real : Realizes host (ownerIn host batch) (outlineAfter host batch done) L w) :
    match apply host r done.length w with
    | none => r.Stale batch
    | some w' => ¬ r.Stale batch ∧ ∃ L', Realizes host (ownerIn host batch)
        (outlineAfter host batch (done ++ [(r, done.length)])) L' w' := by
  have step := apply_spec real valid found ?_ ?_ ?_
  · cases inserted : apply host r done.length w with
    | none =>
      rw [inserted] at step
      exact step
    | some w' =>
      rw [inserted] at step
      obtain ⟨fine, L', real'⟩ := step
      refine ⟨fine, L', ?_⟩
      unfold outlineAfter
      simpa using real'
  · intro v contained
    rw [List.mem_append, mem_hostNodes_iff]
    constructor
    · rintro (⟨u, same, -, kept⟩ | added)
      · cases same
        exact kept
      · obtain ⟨x, -, hx⟩ := List.mem_flatMap.mp added
        obtain ⟨k, -, same⟩ := List.mem_map.mp hx
        cases same
    · exact fun kept => .inl ⟨v, rfl, contained, kept⟩
  · intro k hk
    rcases List.mem_append.mp hk with old | added
    · obtain ⟨u, same, -⟩ := mem_hostNodes_iff.mp old
      cases same
    · obtain ⟨x, hx, mem⟩ := List.mem_flatMap.mp added
      obtain ⟨k', -, same⟩ := List.mem_map.mp mem
      have less := before x hx
      simp only [NodeOrigin.created.injEq, Provenance.mk.injEq] at same
      omega
  · intro y hy k same
    rcases List.mem_append.mp hy with old | added
    · obtain ⟨e, rfl, -⟩ := mem_hostLinks_iff.mp old
      cases same
    · obtain ⟨x, hx, mem⟩ := List.mem_flatMap.mp added
      obtain ⟨z, -, rfl⟩ := List.mem_map.mp mem
      have less := before x hx
      simp only [Resolved.strand, LinkOrigin.created.injEq, Provenance.mk.injEq] at same
      omega

theorem applyRest_spec (valid : ∀ r ∈ batch, r.Valid host) (todo : List (Resolved D × Nat)) :
    ∀ (done : List (Resolved D × Nat)) (L : Layout) (w : Wiring),
      batch.zipIdx = done ++ todo → (∀ x ∈ done, ¬ x.1.Stale batch) →
      Realizes host (ownerIn host batch) (outlineAfter host batch done) L w →
      match todo.foldlM (applyNumbered host) w with
      | .error e => FirstStale batch e
      | .ok w' => (∀ x ∈ todo, ¬ x.1.Stale batch) ∧ ∃ L',
          Realizes host (ownerIn host batch) (outlineAfter host batch batch.zipIdx) L' w' := by
  induction todo with
  | nil =>
    intro done L w split _ real
    rw [List.append_nil] at split
    rw [split]
    exact ⟨by simp, L, real⟩
  | cons x rest ih =>
    intro done L w split fine real
    obtain ⟨r, a⟩ := x
    obtain ⟨place, found, before⟩ := zipIdx_split split
    subst place
    have step := apply_after (valid r (List.mem_of_getElem? found)) found
      (fun x hx => ((before x.1 x.2).mp hx).2) real
    rw [List.foldlM_cons, applyNumbered]
    cases inserted : apply host r done.length w with
    | none =>
      rw [inserted] at step
      refine ⟨_, r, found, step, ?_, rfl⟩
      intro a' less r' found'
      exact fine _ ((before r' a').mpr ⟨found', less⟩)
    | some w₁ =>
      rw [inserted] at step
      obtain ⟨fresh, L₁, real₁⟩ := step
      have later := ih (done ++ [(r, done.length)]) L₁ w₁ (by simp [split]) ?_ real₁
      · simp only [bind, Except.bind]
        cases finished : rest.foldlM (applyNumbered host) w₁ with
        | error e =>
          rw [finished] at later
          exact later
        | ok w₂ =>
          rw [finished] at later
          obtain ⟨fine', L', real'⟩ := later
          refine ⟨?_, L', real'⟩
          intro y hy
          rcases List.mem_cons.mp hy with rfl | hy
          · exact fresh
          · exact fine' y hy
      · intro y hy
        rcases List.mem_append.mp hy with old | new
        · exact fine y old
        · cases List.mem_singleton.mp new
          exact fresh

/-- Inserting a whole batch: the first stale application is reported, or there is none and the
wiring realizes the blueprint of the batch. -/
theorem applyAll_spec (valid : ∀ r ∈ batch, r.Valid host)
    (real : Realizes host (ownerIn host batch)
      ⟨hostNodes host batch, Present host batch 0 0, hostLinks host batch⟩ L w) :
    match applyAll host batch w with
    | .error e => FirstStale batch e
    | .ok w' => (∀ r ∈ batch, ¬ r.Stale batch) ∧ ∃ L', Realizes host (ownerIn host batch)
        ⟨(Blueprint.of host batch).nodes, fun s => (ownerIn host batch s).isSome = true,
          (Blueprint.of host batch).links⟩ L' w' := by
  have start : Realizes host (ownerIn host batch) (outlineAfter host batch []) L w := by
    unfold outlineAfter
    simpa using real
  have all := applyRest_spec valid batch.zipIdx [] L w rfl (by simp) start
  change match batch.zipIdx.foldlM (applyNumbered host) w with
    | .error e => _
    | .ok w' => _
  cases finished : batch.zipIdx.foldlM (applyNumbered host) w with
  | error e =>
    rw [finished] at all
    exact all
  | ok w' =>
    rw [finished] at all
    obtain ⟨fine, L', real'⟩ := all
    refine ⟨?_, L', ?_⟩
    · intro r hr
      obtain ⟨a, ha⟩ := List.getElem?_of_mem hr
      exact fine (r, a) (List.mem_zipIdx_iff_getElem?.mpr ha)
    · refine real'.congr_present ?_
      intro s
      cases s with
      | host e side => exact Iff.rfl
      | fresh p side =>
        refine ⟨And.left, ?_⟩
        intro owned
        refine ⟨owned, .inl ?_⟩
        obtain ⟨n, owns⟩ := Option.isSome_iff_exists.mp owned
        simp only [ownerIn, Option.bind_eq_bind, Option.bind_eq_some_iff] at owns
        obtain ⟨r, found, -⟩ := owns
        rw [List.length_zipIdx]
        exact (List.getElem?_eq_some_iff.mp found).1

end Insertion

end GraphSplice
