import GraphSplice.Proofs.Blueprint.Insertion
import GraphSplice.Proofs.Blueprint.Reordering
import GraphSplice.Proofs.Footprint

/-!
Batches of independent applications. None of them is stale, and no two of them share a socket, so
each component of the blueprint belongs to one application: what is refused in the batch is
refused in that application alone.
-/

namespace GraphSplice

variable {D : Domain} {host : Host D} {batch : List (Resolved D)}

theorem Resolved.spliced?_eq_some {r : Resolved D} {endpoint : Endpoint} {socket : Option Nat}
    {s : Socket} (h : r.spliced? host endpoint socket = some s) :
    ∃ i cut v e record side, endpoint = .matched i ∧ socket = some cut ∧
      r.occurrence.vertices[i]? = some v ∧ r.occurrence.edges[cut]? = some e ∧
      host.edge? e = some record ∧ record.ends.sideAt? v = some side ∧ s = .host e side := by
  cases endpoint with
  | created k => cases h
  | matched i =>
    cases socket with
    | none => cases h
    | some cut =>
      unfold spliced? at h
      simp only [Option.bind_eq_bind, Option.bind_eq_some_iff] at h
      obtain ⟨v, hv, e, he, record, there, side, located, same⟩ := h
      cases same
      exact ⟨i, cut, v, e, record, side, rfl, rfl, hv, he, there, located, rfl⟩

/-- The applications spare one another, and each of them binds every vertex once. -/
structure Apart (host : Host D) (batch : List (Resolved D)) : Prop where
  valid : ∀ r ∈ batch, r.Valid host
  vertices : ∀ r ∈ batch, r.occurrence.vertices.Nodup
  spares : batch.Pairwise fun r s => r.Spares host s ∧ s.Spares host r

namespace Apart

theorem spares_of_ne (apart : Apart host batch) {a a' : Nat} {r s : Resolved D}
    (hr : batch[a]? = some r) (hs : batch[a']? = some s) (different : a ≠ a') :
    r.Spares host s := by
  obtain ⟨inside, rfl⟩ := List.getElem?_eq_some_iff.mp hr
  obtain ⟨inside', rfl⟩ := List.getElem?_eq_some_iff.mp hs
  have pairs := List.pairwise_iff_getElem.mp apart.spares
  rcases Nat.lt_or_gt_of_ne different with before | after
  · exact (pairs a a' inside inside' before).1
  · exact (pairs a' a inside' inside after).2

/-- What an application binds to a kept vertex, no application cuts. -/
theorem not_cutsVertex_of_kept (apart : Apart host batch) {a : Nat} {r : Resolved D}
    (hr : batch[a]? = some r) {i : Nat} {x : MatchedVertex D} {v : VertexId}
    (hx : r.rule.vertices[i]? = some x) (kept : x.fate.isCut = false)
    (hv : r.occurrence.vertices[i]? = some v) : ¬ CutsVertex batch v := by
  intro cuts
  obtain ⟨s, hs, y, hy, cut, same⟩ := cuts
  obtain ⟨a', found⟩ := List.getElem?_of_mem hs
  by_cases own : a = a'
  · subst own
    rw [hr] at found
    cases found
    obtain ⟨j, there⟩ := List.getElem?_of_mem hy
    obtain ⟨hy', hv'⟩ := List.getElem?_zip_eq_some.mp there
    rw [same] at hv'
    have inside := (List.getElem?_eq_some_iff.mp hv).1
    have equal : i = j := (List.getElem?_inj inside
      (apart.vertices r (List.mem_of_getElem? hr))).mp (hv.trans hv'.symm)
    subst equal
    rw [hx] at hy'
    cases hy'
    rw [kept] at cut
    cases cut
  · have spares := apart.spares_of_ne found hr (Ne.symm own)
    exact spares.vertices v (List.mem_of_getElem? hv)
      (cutsVertex_singleton_iff.mpr ⟨y, hy, cut, same⟩)

theorem not_blocked (apart : Apart host batch) {a : Nat} {r : Resolved D}
    (hr : batch[a]? = some r) {endpoint : Endpoint} {socket : Option Nat}
    (anchors : r.rule.Anchors endpoint socket) : ¬ r.Blocked batch endpoint := by
  cases endpoint with
  | created k => exact id
  | matched i =>
    intro blocked
    obtain ⟨v, hv, cuts⟩ := blocked
    obtain ⟨⟨x, hx, kept⟩, -⟩ := anchors
    exact apart.not_cutsVertex_of_kept hr hx kept hv cuts

theorem fresh (apart : Apart host batch) : ∀ r ∈ batch, ¬ r.Stale batch := by
  intro r hr stale
  obtain ⟨a, found⟩ := List.getElem?_of_mem hr
  obtain ⟨x, hx, side, blocked⟩ := stale
  exact apart.not_blocked found (((apart.valid r hr).rule.added x hx).2 side) blocked

/-- The owner of the socket at an end of an added edge is the node that the end names. -/
theorem ownerIn_socket (apart : Apart host batch) {a k : Nat} {r : Resolved D}
    {x : AddedEdge D} (hr : batch[a]? = some r) (hx : r.rule.addedEdges[k]? = some x)
    (side : Side) : Blueprint.ownerIn host batch (r.socket host a k x side) =
      r.node? a (x.ends.get side) := by
  have anchors := ((apart.valid r (List.mem_of_getElem? hr)).rule.added x
    (List.mem_of_getElem? hx)).2 side
  unfold Resolved.socket
  cases spliced : r.spliced? host (x.ends.get side) (x.sockets.get side) with
  | none =>
    rw [Option.getD_none, Blueprint.ownerIn_fresh hr hx, if_pos spliced]
  | some s =>
    obtain ⟨i, cut, v, e, record, side', ends, -, hv, -, there, located, rfl⟩ :=
      Resolved.spliced?_eq_some spliced
    rw [ends] at anchors ⊢
    have uncut : ¬ CutsVertex batch v := fun cuts =>
      apart.not_blocked hr anchors ⟨v, hv, cuts⟩
    have vertex := Ends.get_of_sideAt? located
    rw [Option.getD_some]
    have owner : Blueprint.ownerIn host batch (.host e side') = some (.host v) := by
      rw [Blueprint.ownerIn_host_iff]
      exact ⟨record, there, by rw [vertex]; exact uncut, by rw [vertex]⟩
    rw [owner]
    simp [Resolved.node?, hv]

/-- Applications that share a socket are one. -/
theorem application_of_socket (apart : Apart host batch) {a a' k k' : Nat} {r r' : Resolved D}
    {x x' : AddedEdge D} {side side' : Side} (hr : batch[a]? = some r)
    (hr' : batch[a']? = some r') (hx : r.rule.addedEdges[k]? = some x)
    (same : r.socket host a k x side = r'.socket host a' k' x' side') : a = a' := by
  unfold Resolved.socket at same
  cases spliced : r.spliced? host (x.ends.get side) (x.sockets.get side) with
  | none =>
    cases spliced' : r'.spliced? host (x'.ends.get side') (x'.sockets.get side') with
    | none =>
      rw [spliced, spliced'] at same
      simp only [Option.getD_none, Socket.fresh.injEq, Provenance.mk.injEq] at same
      exact same.1.2.2
    | some s' =>
      obtain ⟨_, _, _, _, _, _, _, _, _, _, _, _, located⟩ := Resolved.spliced?_eq_some spliced'
      rw [spliced, spliced', located] at same
      cases same
  | some s =>
    obtain ⟨i, cut, v, e, record, at', ends, sockets, -, he, -, -, rfl⟩ :=
      Resolved.spliced?_eq_some spliced
    cases spliced' : r'.spliced? host (x'.ends.get side') (x'.sockets.get side') with
    | none =>
      rw [spliced, spliced'] at same
      cases same
    | some s' =>
      obtain ⟨_, _, _, e', _, _, _, _, _, he', _, _, rfl⟩ := Resolved.spliced?_eq_some spliced'
      rw [spliced, spliced'] at same
      simp only [Option.getD_some, Socket.host.injEq] at same
      obtain ⟨rfl, rfl⟩ := same
      -- another application would spare the cut edge
      by_contra different
      have spares := apart.spares_of_ne hr hr' different
      have anchors := ((apart.valid r (List.mem_of_getElem? hr)).rule.added x
        (List.mem_of_getElem? hx)).2 side
      rw [ends, sockets] at anchors
      obtain ⟨edge, found, isCut, -⟩ := anchors.2 cut rfl
      apply (spares.edges e (List.mem_of_getElem? he')).1
      refine cutsEdge_singleton_iff.mpr ⟨(edge, e), ?_, isCut, rfl⟩
      exact List.mem_of_getElem? (List.getElem?_zip_eq_some.mpr ⟨found, he⟩)

theorem single (apart : Apart host batch) {r : Resolved D} (hr : r ∈ batch) : Apart host [r] := by
  refine ⟨?_, ?_, List.pairwise_singleton _ _⟩
  · intro s hs
    rw [List.mem_singleton.mp hs]
    exact apart.valid r hr
  · intro s hs
    rw [List.mem_singleton.mp hs]
    exact apart.vertices r hr

end Apart

namespace Blueprint

/-- A created link ends at the socket. -/
def Spliced (b : Blueprint) (s : Socket) : Prop :=
  ∃ x ∈ b.links, x.origin.isCreated = true ∧ x.ends.Touches s

/-- A created link, told by the application and the added edge that it stands for. -/
theorem mem_created_iff {x : Strand} : (x ∈ (of host batch).links ∧ x.origin.isCreated = true) ↔
    ∃ (a : Nat) (r : Resolved D) (k : Nat) (y : AddedEdge D), batch[a]? = some r ∧
      r.rule.addedEdges[k]? = some y ∧ x = r.strand host a (y, k) := by
  rw [mem_links_iff]
  constructor
  · rintro ⟨⟨e, rfl, -⟩ | added, created⟩
    · cases created
    · exact added
  · rintro ⟨a, r, k, y, hr, hy, rfl⟩
    exact ⟨.inr ⟨a, r, k, y, hr, hy, rfl⟩, rfl⟩

theorem spliced_iff {s : Socket} : (of host batch).Spliced s ↔
    ∃ (a : Nat) (r : Resolved D) (k : Nat) (y : AddedEdge D) (side : Side), batch[a]? = some r ∧
      r.rule.addedEdges[k]? = some y ∧ r.socket host a k y side = s := by
  constructor
  · rintro ⟨x, hx, created, touches⟩
    obtain ⟨a, r, k, y, hr, hy, rfl⟩ := mem_created_iff.mp ⟨hx, created⟩
    obtain ⟨side, at'⟩ := Ends.touches_iff_get.mp touches
    rw [strand_get] at at'
    exact ⟨a, r, k, y, side, hr, hy, at'⟩
  · rintro ⟨a, r, k, y, side, hr, hy, rfl⟩
    obtain ⟨inside, created⟩ := mem_created_iff.mpr ⟨a, r, k, y, hr, hy, rfl⟩
    refine ⟨_, inside, created, Ends.touches_iff_get.mpr ⟨side, strand_get r a (y, k) side⟩⟩

theorem mem_created_single_iff {r : Resolved D} {x : Strand} :
    (x ∈ (of host [r]).links ∧ x.origin.isCreated = true) ↔
      ∃ (k : Nat) (y : AddedEdge D), r.rule.addedEdges[k]? = some y ∧
        x = r.strand host 0 (y, k) := by
  rw [mem_created_iff]
  constructor
  · rintro ⟨a, s, k, y, hs, hy, rfl⟩
    cases a with
    | zero =>
      cases hs
      exact ⟨k, y, hy, rfl⟩
    | succ a => cases hs
  · exact fun ⟨k, y, hy, same⟩ => ⟨0, r, k, y, rfl, hy, same⟩

theorem spliced_single_iff {r : Resolved D} {s : Socket} : (of host [r]).Spliced s ↔
    ∃ (k : Nat) (y : AddedEdge D) (side : Side), r.rule.addedEdges[k]? = some y ∧
      r.socket host 0 k y side = s := by
  rw [spliced_iff]
  constructor
  · rintro ⟨a, s, k, y, side, hs, hy, rfl⟩
    cases a with
    | zero =>
      cases hs
      exact ⟨k, y, side, hy, rfl⟩
    | succ a => cases hs
  · exact fun ⟨k, y, side, hy, same⟩ => ⟨0, r, k, y, side, rfl, hy, same⟩

/-- Only created links lead on from a spliced socket. -/
theorem Spliced.isCreated {b : Blueprint} {s : Socket} (spliced : b.Spliced s) (proper : b.Proper)
    {x : Strand} (hx : x ∈ b.links) (touches : x.ends.Touches s) : x.origin.isCreated = true := by
  obtain ⟨y, hy, created, touches'⟩ := spliced
  cases origin : x.origin with
  | created p => rfl
  | host e =>
    obtain ⟨side, same⟩ := Ends.touches_iff_get.mp touches
    rw [proper.host x hx e origin] at same
    have own : s = .host e side := by rw [← same]; cases side <;> rfl
    rw [own] at touches'
    rw [proper.eq_of_touches_host hx hy origin touches', origin] at created
    cases created

theorem Spliced.linked {b : Blueprint} {s t : Socket} (spliced : b.Spliced s) (proper : b.Proper)
    (linked : b.Linked s t) : b.Spliced t := by
  obtain ⟨x, hx, joins⟩ := linked
  exact ⟨x, hx, spliced.isCreated proper hx joins.touches.1, joins.touches.2⟩

/-- An odd closed walk passes through spliced sockets only. -/
theorem spliced_of_onOddWalk {b : Blueprint} (proper : b.Proper) {s : Socket}
    (odd : OnOddWalk b.Linked s) : b.Spliced s := by
  obtain ⟨n, parity, walk⟩ := id odd
  cases n with
  | zero => exact absurd Even.zero parity
  | succ n =>
    obtain ⟨t, -, x, hx, joins⟩ := walk
    cases origin : x.origin with
    | created p => exact ⟨x, hx, by rw [origin]; rfl, joins.touches.2⟩
    | host e =>
      obtain ⟨side, same⟩ := Ends.touches_iff_get.mp joins.touches.2
      rw [proper.host x hx e origin] at same
      have own : s = .host e side := by rw [← same]; cases side <;> rfl
      rw [own] at odd
      exact absurd odd (proper.not_onOddWalk_of_hostLink hx origin side)

end Blueprint

/-! ## Components -/

namespace Apart

open Blueprint

variable {a : Nat} {r : Resolved D}

theorem relabel_socket (r : Resolved D) (a k : Nat) (x : AddedEdge D) (side : Side) :
    (r.socket host 0 k x side).relabel (Equiv.swap 0 a) = r.socket host a k x side := by
  rw [Resolved.socket_relabel, Equiv.swap_apply_left]

theorem relabel_strand (r : Resolved D) (a : Nat) (x : AddedEdge D × Nat) :
    (r.strand host 0 x).relabel (Equiv.swap 0 a) = r.strand host a x := by
  rw [Resolved.strand_relabel, Equiv.swap_apply_left]

theorem spliced_of_single (hr : batch[a]? = some r) {u : Socket}
    (spliced : (of host [r]).Spliced u) :
    (of host batch).Spliced (u.relabel (Equiv.swap 0 a)) := by
  obtain ⟨k, y, side, hy, rfl⟩ := spliced_single_iff.mp spliced
  exact spliced_iff.mpr ⟨a, r, k, y, side, hr, hy, (relabel_socket r a k y side).symm⟩

/-- The created links at the sockets of one application are those of that application. -/
theorem exists_link (apart : Apart host batch) (hr : batch[a]? = some r) {u : Socket}
    (spliced : (of host [r]).Spliced u) {x : Strand} (hx : x ∈ (of host batch).links)
    (touches : x.ends.Touches (u.relabel (Equiv.swap 0 a))) :
    ∃ y ∈ (of host [r]).links, y.relabel (Equiv.swap 0 a) = x := by
  have created := (spliced_of_single hr spliced).isCreated (proper_of apart.valid) hx touches
  obtain ⟨k, y, side, hy, rfl⟩ := spliced_single_iff.mp spliced
  obtain ⟨a', s, k', y', hs, hy', rfl⟩ := mem_created_iff.mp ⟨hx, created⟩
  obtain ⟨side', at'⟩ := Ends.touches_iff_get.mp touches
  rw [strand_get, relabel_socket] at at'
  obtain rfl := apart.application_of_socket hs hr hy' at'
  rw [hr] at hs
  cases hs
  exact ⟨_, (mem_created_single_iff.mpr ⟨k', y', hy', rfl⟩).1, relabel_strand r a' (y', k')⟩

theorem link_of_single (apart : Apart host batch) (hr : batch[a]? = some r) {u : Socket}
    (spliced : (of host [r]).Spliced u) {y : Strand} (hy : y ∈ (of host [r]).links)
    (touches : y.ends.Touches u) : y.relabel (Equiv.swap 0 a) ∈ (of host batch).links := by
  have proper := proper_of (apart.single (List.mem_of_getElem? hr)).valid
  obtain ⟨k, z, hz, rfl⟩ :=
    mem_created_single_iff.mp ⟨hy, spliced.isCreated proper hy touches⟩
  rw [relabel_strand]
  exact (mem_created_iff.mpr ⟨a, r, k, z, hr, hz, rfl⟩).1

theorem linked_iff (apart : Apart host batch) (hr : batch[a]? = some r) {u t : Socket}
    (spliced : (of host [r]).Spliced u) :
    (of host batch).Linked (u.relabel (Equiv.swap 0 a)) t ↔
      ∃ v : Socket, v.relabel (Equiv.swap 0 a) = t ∧ (of host [r]).Linked u v := by
  constructor
  · rintro ⟨x, hx, joins⟩
    obtain ⟨y, hy, rfl⟩ := apart.exists_link hr spliced hx joins.touches.1
    obtain ⟨v, same, joins'⟩ := Ends.Joins.of_map (f := Socket.relabel (Equiv.swap 0 a))
      (fun _ same => Socket.relabel_injective _ same) joins
    exact ⟨v, same, y, hy, joins'⟩
  · rintro ⟨v, rfl, y, hy, joins⟩
    exact ⟨_, apart.link_of_single hr spliced hy joins.touches.1, joins.map _⟩

theorem walk_iff (apart : Apart host batch) (hr : batch[a]? = some r) {u t : Socket} {n : Nat}
    (spliced : (of host [r]).Spliced u) :
    Walk (of host batch).Linked n (u.relabel (Equiv.swap 0 a)) t ↔
      ∃ v : Socket, v.relabel (Equiv.swap 0 a) = t ∧ Walk (of host [r]).Linked n u v :=
  Walk.map_iff (P := (of host [r]).Spliced)
    (fun _ _ spliced linked => spliced.linked
      (proper_of (apart.single (List.mem_of_getElem? hr)).valid) linked)
    (fun _ spliced _ => apart.linked_iff hr spliced) spliced

theorem onOddWalk_iff (apart : Apart host batch) (hr : batch[a]? = some r) {u : Socket}
    (spliced : (of host [r]).Spliced u) :
    OnOddWalk (of host batch).Linked (u.relabel (Equiv.swap 0 a)) ↔
      OnOddWalk (of host [r]).Linked u := by
  refine exists_congr fun n => and_congr Iff.rfl ?_
  rw [apart.walk_iff hr spliced]
  constructor
  · rintro ⟨v, same, walk⟩
    rwa [Socket.relabel_injective _ same] at walk
  · exact fun walk => ⟨u, rfl, walk⟩

/-- Every spliced socket is one of some application. -/
theorem exists_spliced {s : Socket} (spliced : (of host batch).Spliced s) :
    ∃ (a : Nat) (r : Resolved D) (u : Socket), batch[a]? = some r ∧
      (of host [r]).Spliced u ∧ u.relabel (Equiv.swap 0 a) = s := by
  obtain ⟨a, r, k, y, side, hr, hy, rfl⟩ := spliced_iff.mp spliced
  exact ⟨a, r, r.socket host 0 k y side, hr, spliced_single_iff.mpr ⟨k, y, side, hy, rfl⟩,
    relabel_socket r a k y side⟩

/-- A batch is odd through one of its applications. -/
theorem odd_iff (apart : Apart host batch) :
    (of host batch).Odd ↔ ∃ r ∈ batch, (of host [r]).Odd := by
  constructor
  · rintro ⟨s, odd⟩
    obtain ⟨a, r, u, hr, spliced, rfl⟩ :=
      exists_spliced (spliced_of_onOddWalk (proper_of apart.valid) odd)
    exact ⟨r, List.mem_of_getElem? hr, u, (apart.onOddWalk_iff hr spliced).mp odd⟩
  · rintro ⟨r, hr, s, odd⟩
    obtain ⟨a, found⟩ := List.getElem?_of_mem hr
    have spliced := spliced_of_onOddWalk (proper_of (apart.single hr).valid) odd
    exact ⟨_, (apart.onOddWalk_iff found spliced).mpr odd⟩

/-! ## Crowded sockets -/

/-- Every socket of an added edge has an owner. -/
theorem isSome_owner (apart : Apart host batch) {s : Socket}
    (spliced : (of host batch).Spliced s) : ((of host batch).owner s).isSome = true := by
  obtain ⟨a, r, k, y, side, hr, hy, rfl⟩ := spliced_iff.mp spliced
  have valid := apart.valid r (List.mem_of_getElem? hr)
  have anchors := (valid.rule.added y (List.mem_of_getElem? hy)).2 side
  change (ownerIn host batch (r.socket host a k y side)).isSome = true
  rw [apart.ownerIn_socket hr hy]
  cases endpoint : y.ends.get side with
  | matched i =>
    rw [endpoint] at anchors
    obtain ⟨v, hv, -⟩ := Resolved.vertex_of_anchors valid anchors
    simp [Resolved.node?, hv]
  | created k =>
    rw [endpoint] at anchors
    simp [Resolved.node?, anchors.1]

theorem foremost_iff (apart : Apart host batch) (hr : batch[a]? = some r) {e : EdgeId}
    {side : Side} (spliced : (of host [r]).Spliced (.host e side)) :
    (of host batch).Foremost e side ↔ (of host [r]).Foremost e side := by
  have member := List.mem_of_getElem? hr
  have spliced' : (of host batch).Spliced (.host e side) := spliced_of_single hr spliced
  have beside : ∀ e' side', (of host batch).Beside (.host e side) (.host e' side') ↔
      (of host [r]).Beside (.host e side) (.host e' side') := by
    intro e' side'
    refine exists_congr fun n => and_congr Iff.rfl ?_
    refine (apart.walk_iff hr spliced).trans ?_
    constructor
    · rintro ⟨v, same, walk⟩
      rwa [(Socket.relabel_eq_host_iff _).mp same] at walk
    · exact fun walk => ⟨_, rfl, walk⟩
  unfold Foremost
  rw [apart.isSome_owner spliced', (apart.single member).isSome_owner spliced]
  exact and_congr Iff.rfl (forall₂_congr fun e' side' => imp_congr (beside e' side') Iff.rfl)

/-- The links between two sockets of one application, counted in the batch. -/
theorem length_between (apart : Apart host batch) (nodup : (of host batch).links.Nodup)
    (hr : batch[a]? = some r) (nodup' : (of host [r]).links.Nodup) {u v : Socket}
    (spliced : (of host [r]).Spliced u) :
    ((of host batch).between (u.relabel (Equiv.swap 0 a)) (v.relabel (Equiv.swap 0 a))).length =
      ((of host [r]).between u v).length := by
  have perm : (((of host [r]).between u v).map (Strand.relabel (Equiv.swap 0 a))).Perm
      ((of host batch).between (u.relabel (Equiv.swap 0 a)) (v.relabel (Equiv.swap 0 a))) := by
    refine (List.perm_ext_iff_of_nodup ?_ (nodup.filter _)).mpr ?_
    · apply (nodup'.filter _).map
      exact Function.LeftInverse.injective (Strand.relabel_symm _)
    · intro x
      simp only [between, List.mem_map, List.mem_filter, decide_eq_true_eq]
      constructor
      · rintro ⟨y, ⟨hy, joins⟩, rfl⟩
        exact ⟨apart.link_of_single hr spliced hy joins.touches.1,
          (Strand.relabel_joins_iff _).mpr joins⟩
      · rintro ⟨hx, joins⟩
        obtain ⟨y, hy, rfl⟩ := apart.exists_link hr spliced hx joins.touches.1
        exact ⟨y, ⟨hy, (Strand.relabel_joins_iff _).mp joins⟩, rfl⟩
  rw [← perm.length_eq, List.length_map]

/-- A socket is crowded in the batch through one of its applications. -/
theorem crowded_iff (apart : Apart host batch) (nodup : (of host batch).links.Nodup)
    (nodup' : ∀ r ∈ batch, (of host [r]).links.Nodup) {e : EdgeId} {side : Side} {n : Nat} :
    (of host batch).Crowded e side n ↔ ∃ r ∈ batch, (of host [r]).Crowded e side n := by
  constructor
  · rintro ⟨several, first, e', side', second, count⟩
    have some' : 2 ≤ ((of host batch).between (.host e side) (.host e' side')).length := by omega
    obtain ⟨x, hx⟩ := List.exists_mem_of_length_pos (Nat.lt_of_lt_of_le Nat.zero_lt_two some')
    have created := (proper_of apart.valid).isCreated_of_between nodup some' x hx
    obtain ⟨inside, joins⟩ := List.mem_filter.mp hx
    have joins := of_decide_eq_true joins
    obtain ⟨a, r, u, hr, spliced, same⟩ := exists_spliced ⟨x, inside, created, joins.touches.1⟩
    obtain rfl := (Socket.relabel_eq_host_iff _).mp same
    have spliced' : (of host [r]).Spliced (.host e' side') := by
      obtain ⟨v, same', linked⟩ := (apart.linked_iff hr spliced).mp ⟨x, inside, joins⟩
      obtain rfl := (Socket.relabel_eq_host_iff _).mp same'
      exact spliced.linked (proper_of (apart.single (List.mem_of_getElem? hr)).valid) linked
    have member := List.mem_of_getElem? hr
    refine ⟨r, member, several, (apart.foremost_iff hr spliced).mp first, e', side',
      (apart.foremost_iff hr spliced').mp second, ?_⟩
    rw [← count]
    exact (apart.length_between nodup hr (nodup' r member) (v := .host e' side') spliced).symm
  · rintro ⟨r, member, several, first, e', side', second, count⟩
    obtain ⟨a, hr⟩ := List.getElem?_of_mem member
    have proper := proper_of (apart.single member).valid
    have some' : 2 ≤ ((of host [r]).between (.host e side) (.host e' side')).length := by omega
    obtain ⟨x, hx⟩ := List.exists_mem_of_length_pos (Nat.lt_of_lt_of_le Nat.zero_lt_two some')
    have created := proper.isCreated_of_between (nodup' r member) some' x hx
    obtain ⟨inside, joins⟩ := List.mem_filter.mp hx
    have joins := of_decide_eq_true joins
    have spliced : (of host [r]).Spliced (.host e side) := ⟨x, inside, created, joins.touches.1⟩
    have spliced' : (of host [r]).Spliced (.host e' side') :=
      ⟨x, inside, created, joins.touches.2⟩
    refine ⟨several, (apart.foremost_iff hr spliced).mpr first, e', side',
      (apart.foremost_iff hr spliced').mpr second, ?_⟩
    rw [← count]
    exact apart.length_between nodup hr (nodup' r member) (v := .host e' side') spliced

end Apart

end GraphSplice
