import GraphSplice.Proofs.Blueprint
import GraphSplice.Proofs.Wiring.Expansion
import GraphSplice.Proofs.Wiring.Reconciliation

/-!
A wiring realizes the nodes, sockets and links of a blueprint when each of them has its place in
the arenas, in order. Adding a node, a fresh socket or a link to both keeps this up.
-/

namespace GraphSplice

/-- Where the elements of a blueprint are in the arenas. -/
structure Layout where
  node : NodeOrigin → Nat
  socket : Socket → Nat
  link : LinkOrigin → Nat

/-- The part of a blueprint that is there so far. -/
structure Outline where
  nodes : List NodeOrigin
  present : Socket → Prop
  links : List Strand

open Wiring in
structure Realizes {N E : Type} (host : Graph N E) (owner : Socket → Option NodeOrigin)
    (o : Outline) (L : Layout) (w : Wiring) : Prop where
  sound : w.Sound
  hostOrder : w.hostOrder = host.order
  hostSize : w.hostSize = host.size
  room : host.order + 2 * host.size ≤ w.joints.size
  node_iff : ∀ j n, w.kind? j = some (.node n) ↔ n ∈ o.nodes ∧ L.node n = j
  nodeAscending : (o.nodes.map L.node).Pairwise (· < ·)
  socket_iff : ∀ j, w.IsSocket j ↔ ∃ s, o.present s ∧ L.socket s = j
  distinct : ∀ s t, o.present s → o.present t → L.socket s = L.socket t → s = t
  owned : ∀ s, o.present s →
    ∃ n ∈ o.nodes, owner s = some n ∧ w.AttachedTo (L.node n) (L.socket s)
  single : ∀ e f m n s, w.wire? e = some ⟨⟨m, s⟩, .attachment⟩ →
    w.wire? f = some ⟨⟨n, s⟩, .attachment⟩ → e = f
  link_iff : ∀ e ends origin, w.wire? e = some ⟨ends, .link origin⟩ ↔
    ∃ x ∈ o.links, x.origin = origin ∧ L.link origin = e ∧ x.ends.map L.socket = ends
  linkAscending : (o.links.map fun x => L.link x.origin).Pairwise (· < ·)
  ends : ∀ x ∈ o.links, ∀ side, o.present (x.ends.get side)
  hostNode : ∀ v, .host v ∈ o.nodes → host.Contains v ∧ L.node (.host v) = v.slot
  createdNode : ∀ p, .created p ∈ o.nodes → host.order + 2 * host.size ≤ L.node (.created p)
  hostSocket : ∀ e side, o.present (.host e side) →
    e.slot < host.size ∧ L.socket (.host e side) = socketSlot host.order e side
  freshSocket : ∀ p side, o.present (.fresh p side) →
    host.order + 2 * host.size ≤ L.socket (.fresh p side)

namespace Realizes

open Wiring

variable {N E : Type} {host : Graph N E} {owner : Socket → Option NodeOrigin} {o : Outline}
  {L : Layout} {w : Wiring}

theorem isNode (r : Realizes host owner o L w) {n : NodeOrigin} (h : n ∈ o.nodes) :
    w.IsNode (L.node n) := ⟨n, (r.node_iff _ n).mpr ⟨h, rfl⟩⟩

theorem isSocket (r : Realizes host owner o L w) {s : Socket} (h : o.present s) :
    w.IsSocket (L.socket s) := (r.socket_iff _).mpr ⟨s, h, rfl⟩

theorem live_cases (r : Realizes host owner o L w) {j : Nat} (live : w.IsLive j) :
    (∃ n ∈ o.nodes, L.node n = j) ∨ ∃ s, o.present s ∧ L.socket s = j := by
  obtain ⟨k, h⟩ := isLive_iff_kind?.mp live
  cases k with
  | node n => exact .inl ⟨n, (r.node_iff j n).mp h⟩
  | socket s => exact .inr ((r.socket_iff j).mp ⟨s, h⟩)

theorem node_lt (r : Realizes host owner o L w) {n : NodeOrigin} (h : n ∈ o.nodes) :
    L.node n < w.nextJoint := lt_size_of_isLive (r.isNode h).isLive

theorem socket_lt (r : Realizes host owner o L w) {s : Socket} (h : o.present s) :
    L.socket s < w.nextJoint := lt_size_of_isLive (r.isSocket h).isLive

theorem link_lt (r : Realizes host owner o L w) {x : Strand} (h : x ∈ o.links) :
    L.link x.origin < w.nextWire :=
  lt_size_of_wire? ((r.link_iff _ _ _).mpr ⟨x, h, rfl, rfl, rfl⟩)

/-- The node of a host vertex is found unless it is gone. -/
theorem hostNode?_eq_some_iff (r : Realizes host owner o L w) {v : VertexId} {j : Nat} :
    w.hostNode? v = some j ↔ .host v ∈ o.nodes ∧ L.node (.host v) = j := by
  unfold hostNode?
  rw [r.hostOrder]
  constructor
  · intro h
    split at h
    · next inside =>
      cases h
      rcases r.live_cases inside.2 with ⟨n, hn, same⟩ | ⟨s, hs, same⟩
      · cases n with
        | host u =>
          have place := (r.hostNode u hn).2
          obtain rfl : u = v := Handle.ext_slot (place.symm.trans same)
          exact ⟨hn, same⟩
        | created p =>
          have above := r.createdNode p hn
          have below := inside.1
          omega
      · cases s with
        | host e side =>
          have place := (r.hostSocket e side hs).2
          have below := inside.1
          have slots : host.order + 2 * e.slot + side.toNat = v.slot := place.symm.trans same
          omega
        | fresh p side =>
          have above := r.freshSocket p side hs
          have below := inside.1
          omega
    · cases h
  · rintro ⟨hn, rfl⟩
    obtain ⟨contained, place⟩ := r.hostNode v hn
    have live := (r.isNode hn).isLive
    rw [place] at live ⊢
    rw [if_pos ⟨contained, live⟩]

theorem hostSocket?_eq_some_iff (r : Realizes host owner o L w) {e : EdgeId} {side : Side}
    {j : Nat} : w.hostSocket? e side = some j ↔
      o.present (.host e side) ∧ L.socket (.host e side) = j := by
  simp only [hostSocket?, r.hostOrder, r.hostSize]
  constructor
  · intro h
    split at h
    · next inside =>
      cases h
      have range : side.toNat < 2 := by cases side <;> simp [Side.toNat]
      have slot : socketSlot host.order e side = host.order + 2 * e.slot + side.toNat := rfl
      rcases r.live_cases inside.2 with ⟨n, hn, same⟩ | ⟨s, hs, same⟩
      · cases n with
        | host u =>
          obtain ⟨contained, place⟩ := r.hostNode u hn
          have below : u.slot < host.order := contained
          have slots : u.slot = host.order + 2 * e.slot + side.toNat := place.symm.trans same
          omega
        | created p =>
          have above := r.createdNode p hn
          have below := inside.1
          have slots : L.node (.created p) = host.order + 2 * e.slot + side.toNat := same
          omega
      · cases s with
        | host e' side' =>
          have place := (r.hostSocket e' side' hs).2
          obtain ⟨rfl, rfl⟩ := socketSlot_inj (place.symm.trans same)
          exact ⟨hs, same⟩
        | fresh p side' =>
          have above := r.freshSocket p side' hs
          have below := inside.1
          have slots : L.socket (.fresh p side') = host.order + 2 * e.slot + side.toNat := same
          omega
    · cases h
  · rintro ⟨hs, rfl⟩
    obtain ⟨inside, place⟩ := r.hostSocket e side hs
    have live := (r.isSocket hs).isLive
    rw [place] at live ⊢
    rw [if_pos ⟨inside, live⟩]

/-! ## Steps -/

section Places

variable {α : Type} {f g : α → Nat} {xs : List α} {a x : α} {next j : Nat}

/-- An element that takes the next place is found there, the others where they were. -/
theorem place_update_iff [DecidableEq α] {P : α → Prop} (fresh : ¬ P a)
    (below : ∀ x, P x → f x < next) : (P x ∨ x = a) ∧ Function.update f a next x = j ↔
      if j = next then x = a else P x ∧ f x = j := by
  by_cases new : x = a
  · subst new
    rw [Function.update_self]
    split
    · next last => simp [last]
    · next last => simp [fresh, Ne.symm last]
  · rw [Function.update_of_ne new]
    split
    · next last =>
      simp only [new, or_false, iff_false]
      rintro ⟨old, rfl⟩
      exact Nat.lt_irrefl _ (last ▸ below x old)
    · simp [new]

theorem ascending_concat (ascending : (xs.map f).Pairwise (· < ·)) (kept : ∀ x ∈ xs, g x = f x)
    (below : ∀ x ∈ xs, f x < g a) : ((xs ++ [a]).map g).Pairwise (· < ·) := by
  rw [List.map_append, List.pairwise_append, List.map_congr_left kept]
  refine ⟨ascending, List.pairwise_singleton _ _, ?_⟩
  intro m hm n hn
  obtain ⟨x, hx, rfl⟩ := List.mem_map.mp hm
  obtain rfl : n = g a := List.mem_singleton.mp hn
  exact below x hx

end Places

theorem addNode (r : Realizes host owner o L w) {p : Provenance} (fresh : .created p ∉ o.nodes) :
    Realizes host owner { o with nodes := o.nodes ++ [.created p] }
      { L with node := Function.update L.node (.created p) w.nextJoint }
      (w.addNode (.created p)) := by
  have kept : ∀ n ∈ o.nodes,
      Function.update L.node (.created p) w.nextJoint n = L.node n := by
    intro n hn
    rw [Function.update_of_ne]
    rintro rfl
    exact fresh hn
  have new : Function.update L.node (.created p) w.nextJoint (.created p) = w.nextJoint :=
    Function.update_self ..
  refine { r with
    sound := r.sound.addJoint _
    room := ?room
    node_iff := ?node_iff
    nodeAscending := ascending_concat r.nodeAscending kept fun n hn => (r.node_lt hn).trans_eq new.symm
    socket_iff := ?socket_iff
    owned := ?owned
    hostNode := ?hostNode
    createdNode := ?createdNode }
  case room =>
    rw [Wiring.addNode, size_addJoint]
    exact Nat.le_succ_of_le r.room
  case node_iff =>
    intro j n
    rw [Wiring.addNode, kind?_addJoint, List.mem_append, List.mem_singleton,
      place_update_iff (P := (· ∈ o.nodes)) fresh fun n hn => r.node_lt hn]
    split
    · simp [eq_comm]
    · exact r.node_iff j n
  case socket_iff =>
    intro j
    rw [← r.socket_iff]
    unfold IsSocket
    rw [Wiring.addNode, kind?_addJoint]
    by_cases last : j = w.nextJoint
    · subst last
      simp
    · rw [if_neg last]
  case owned =>
    intro s hs
    obtain ⟨n, hn, owns, attached⟩ := r.owned s hs
    refine ⟨n, List.mem_append_left _ hn, owns, ?_⟩
    dsimp only
    rwa [kept n hn]
  case hostNode =>
    intro v hv
    rcases List.mem_append.mp hv with old | new'
    · exact ⟨(r.hostNode v old).1, (kept _ old).trans (r.hostNode v old).2⟩
    · cases List.mem_singleton.mp new'
  case createdNode =>
    intro q hq
    rcases List.mem_append.mp hq with old | new'
    · exact (r.createdNode q old).trans_eq (kept _ old).symm
    · cases List.mem_singleton.mp new'
      exact r.room.trans_eq new.symm

theorem addFresh (r : Realizes host owner o L w) {p : Provenance} {side : Side} {n : NodeOrigin}
    (fresh : ¬ o.present (.fresh p side)) (owns : owner (.fresh p side) = some n)
    (hn : n ∈ o.nodes) :
    Realizes host owner { o with present := fun s => o.present s ∨ s = .fresh p side }
      { L with socket := Function.update L.socket (.fresh p side) w.nextJoint }
      (w.addSocket (L.node n) .fresh) := by
  have kept : ∀ s, o.present s →
      Function.update L.socket (.fresh p side) w.nextJoint s = L.socket s := by
    intro s hs
    rw [Function.update_of_ne]
    rintro rfl
    exact fresh hs
  have new : Function.update L.socket (.fresh p side) w.nextJoint (.fresh p side) = w.nextJoint :=
    Function.update_self ..
  have keptEnds : ∀ x ∈ o.links,
      x.ends.map (Function.update L.socket (.fresh p side) w.nextJoint) = x.ends.map L.socket :=
    fun x hx => congrArg₂ Ends.mk (kept _ (r.ends x hx .first)) (kept _ (r.ends x hx .second))
  have place {s : Socket} {j : Nat} := place_update_iff (x := s) (j := j) fresh
    fun s hs => r.socket_lt (s := s) hs
  refine { r with
    sound := r.sound.addSocket (r.isNode hn) _
    room := r.room.trans ((Nat.le_succ _).trans_eq (nextJoint_addSocket w _ _).symm)
    node_iff := ?node_iff
    socket_iff := ?socket_iff
    distinct := ?distinct
    owned := ?owned
    single := ?single
    link_iff := ?link_iff
    ends := fun x hx side' => .inl (r.ends x hx side')
    hostSocket := ?hostSocket
    freshSocket := ?freshSocket }
  case node_iff =>
    intro j m
    rw [kind?_addSocket]
    split
    · next last =>
      simp only [reduceCtorEq, Option.some.injEq, false_iff]
      rintro ⟨hm, same⟩
      exact Nat.ne_of_lt (r.node_lt hm) (same.trans last)
    · exact r.node_iff j m
  case socket_iff =>
    intro j
    rw [isSocket_addSocket, r.socket_iff]
    simp only [place]
    split
    · next last => simp [last]
    · next older => simp [older]
  case distinct =>
    intro s t hs ht same
    have left := place.mp ⟨hs, same⟩
    have right := place.mp ⟨ht, rfl⟩
    split at left
    · next last =>
      rw [if_pos last] at right
      exact left.trans right.symm
    · next older =>
      rw [if_neg older] at right
      exact r.distinct s t left.1 right.1 (left.2.trans right.2.symm)
  case owned =>
    intro s hs
    rcases hs with hs | rfl
    · obtain ⟨m, hm, owns', attached⟩ := r.owned s hs
      refine ⟨m, hm, owns', ?_⟩
      dsimp only
      rw [kept s hs]
      obtain ⟨e, found⟩ := attached
      have older : e ≠ w.nextWire := Nat.ne_of_lt (lt_size_of_wire? found)
      exact ⟨e, by rw [wire?_addSocket, if_neg older, found]⟩
    · refine ⟨n, hn, owns, w.nextWire, ?_⟩
      dsimp only
      rw [wire?_addSocket, if_pos rfl, new]
  case single =>
    intro e f a b s he hf
    have first := r.sound.attachment_addSocket he
    have second := r.sound.attachment_addSocket hf
    split at first
    · next last =>
      rw [if_pos last] at second
      exact first.trans second.symm
    · next older =>
      rw [if_neg older] at second
      exact r.single e f a b s first second
  case link_iff =>
    intro e ends origin
    rw [wire?_addSocket]
    constructor
    · intro h
      split at h
      · cases h
      · obtain ⟨x, hx, rfl, rfl, rfl⟩ := (r.link_iff e ends origin).mp h
        exact ⟨x, hx, rfl, rfl, keptEnds x hx⟩
    · rintro ⟨x, hx, rfl, rfl, rfl⟩
      dsimp only
      rw [if_neg (Nat.ne_of_lt (r.link_lt hx)), keptEnds x hx]
      exact (r.link_iff _ _ _).mpr ⟨x, hx, rfl, rfl, rfl⟩
  case hostSocket =>
    intro e side' hs
    rcases hs with hs | same
    · exact ⟨(r.hostSocket e side' hs).1, (kept _ hs).trans (r.hostSocket e side' hs).2⟩
    · cases same
  case freshSocket =>
    intro q side' hs
    rcases hs with hs | same
    · exact (r.freshSocket q side' hs).trans_eq (kept _ hs).symm
    · cases same
      exact r.room.trans_eq new.symm

theorem addLink (r : Realizes host owner o L w) {x : Strand}
    (ends : ∀ side, o.present (x.ends.get side)) (fresh : ∀ y ∈ o.links, y.origin ≠ x.origin) :
    Realizes host owner { o with links := o.links ++ [x] }
      { L with link := Function.update L.link x.origin w.nextWire }
      (w.addLink (L.socket x.ends.first) (L.socket x.ends.second) x.origin) := by
  have kept : ∀ y ∈ o.links, Function.update L.link x.origin w.nextWire y.origin =
      L.link y.origin := fun y hy => Function.update_of_ne (fresh y hy) ..
  have new : Function.update L.link x.origin w.nextWire x.origin = w.nextWire :=
    Function.update_self ..
  refine { r with
    sound := r.sound.addLink (r.isSocket (ends .first)) (r.isSocket (ends .second)) _
    room := r.room.trans_eq (size_addWire ..).1.symm
    node_iff := ?node_iff
    socket_iff := fun j => (isSocket_congr (kind?_addLink ..)).trans (r.socket_iff j)
    owned := ?owned
    single := ?single
    link_iff := ?link_iff
    linkAscending :=
      ascending_concat r.linkAscending kept fun y hy => (r.link_lt hy).trans_eq new.symm
    ends := ?ends }
  case node_iff =>
    intro j n
    rw [kind?_addLink]
    exact r.node_iff j n
  case owned =>
    intro s hs
    obtain ⟨n, hn, owns, e, found⟩ := r.owned s hs
    exact ⟨n, hn, owns, e, attachment_addLink.mpr found⟩
  case single =>
    intro e f m n s he hf
    exact r.single e f m n s (attachment_addLink.mp he) (attachment_addLink.mp hf)
  case link_iff =>
    intro e ends' origin
    rw [wire?_addLink]
    split
    · next last =>
      subst last
      constructor
      · intro h
        cases h
        exact ⟨x, List.mem_append_right _ List.mem_cons_self, rfl, new, rfl⟩
      · rintro ⟨y, hy, rfl, place, rfl⟩
        rcases List.mem_append.mp hy with old | last
        · exact absurd ((kept y old).symm.trans place) (Nat.ne_of_lt (r.link_lt old))
        · obtain rfl := List.mem_singleton.mp last
          rfl
    · next older =>
      rw [r.link_iff]
      constructor
      · rintro ⟨y, hy, rfl, place, rfl⟩
        exact ⟨y, List.mem_append_left _ hy, rfl, (kept y hy).trans place, rfl⟩
      · rintro ⟨y, hy, rfl, place, rfl⟩
        rcases List.mem_append.mp hy with old | new'
        · exact ⟨y, old, rfl, (kept y old).symm.trans place, rfl⟩
        · obtain rfl := List.mem_singleton.mp new'
          exact absurd (place.symm.trans new) older
  case ends =>
    intro y hy side
    rcases List.mem_append.mp hy with old | new'
    · exact r.ends y old side
    · obtain rfl := List.mem_singleton.mp new'
      exact ends side

/-- Only which sockets are there matters. -/
theorem congr_present (r : Realizes host owner o L w) {present : Socket → Prop}
    (same : ∀ s, o.present s ↔ present s) :
    Realizes host owner ⟨o.nodes, present, o.links⟩ L w := by
  obtain rfl : o.present = present := funext fun s => propext (same s)
  exact r

end Realizes

end GraphSplice
