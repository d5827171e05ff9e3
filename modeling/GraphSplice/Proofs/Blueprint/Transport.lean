import GraphSplice.Proofs.Blueprint.Realization
import GraphSplice.Proofs.Blueprint.Structure
import GraphSplice.Proofs.Wiring.Settlement

/-!
What a wiring that realizes a blueprint says about walks, merging and order, it says of the
blueprint.
-/

namespace GraphSplice

open Wiring

namespace Blueprint

variable {b : Blueprint}

/-- The blueprint as the outline of itself. -/
def outline (b : Blueprint) : Outline := ⟨b.nodes, fun s => (b.owner s).isSome = true, b.links⟩

end Blueprint

namespace Realizes

open Blueprint

variable {N E : Type} {host : Graph N E} {b : Blueprint} {L : Layout} {w : Wiring}

theorem isSome_of_linked (r : Realizes host b.owner b.outline L w) {s t : Socket}
    (h : b.Linked s t) : (b.owner t).isSome = true := by
  obtain ⟨x, hx, joins⟩ := h
  obtain ⟨side, same⟩ := Ends.touches_iff_get.mp joins.touches.2
  rw [← same]
  exact r.ends x hx side

theorem linkedTo_iff (r : Realizes host b.owner b.outline L w) {s : Socket}
    (hs : (b.owner s).isSome = true) {j : Nat} :
    w.LinkedTo (L.socket s) j ↔ ∃ t, L.socket t = j ∧ b.Linked s t := by
  constructor
  · rintro ⟨e, ends, origin, found, joins⟩
    obtain ⟨x, hx, -, -, rfl⟩ := (r.link_iff e ends origin).mp found
    obtain ⟨t, same, joined⟩ := joins.of_map fun side equal =>
      r.distinct _ s (r.ends x hx side) hs equal
    exact ⟨t, same, x, hx, joined⟩
  · rintro ⟨t, rfl, x, hx, joins⟩
    exact ⟨L.link x.origin, x.ends.map L.socket, x.origin,
      (r.link_iff _ _ _).mpr ⟨x, hx, rfl, rfl, rfl⟩, joins.map L.socket⟩

theorem walk_iff (r : Realizes host b.owner b.outline L w) {s : Socket}
    (hs : (b.owner s).isSome = true) {n : Nat} {j : Nat} :
    Walk w.LinkedTo n (L.socket s) j ↔ ∃ t, L.socket t = j ∧ Walk b.Linked n s t :=
  Walk.map_iff (P := fun s => (b.owner s).isSome = true)
    (fun _ _ _ linked => r.isSome_of_linked linked) (fun _ ht _ => r.linkedTo_iff ht) hs

theorem isSome_of_walk (r : Realizes host b.owner b.outline L w) {s t : Socket}
    (hs : (b.owner s).isSome = true) {n : Nat} (walk : Walk b.Linked n s t) :
    (b.owner t).isSome = true :=
  walk.mem_of_closed (S := fun s => (b.owner s).isSome = true)
    (fun _ _ _ linked => r.isSome_of_linked linked) hs

theorem walk_socket_iff (r : Realizes host b.owner b.outline L w) {s t : Socket}
    (hs : (b.owner s).isSome = true) (ht : (b.owner t).isSome = true) {n : Nat} :
    Walk w.LinkedTo n (L.socket s) (L.socket t) ↔ Walk b.Linked n s t := by
  rw [r.walk_iff hs]
  constructor
  · rintro ⟨u, same, walk⟩
    obtain rfl := r.distinct u t (r.isSome_of_walk hs walk) ht same
    exact walk
  · exact fun walk => ⟨t, rfl, walk⟩

theorem beside_iff (r : Realizes host b.owner b.outline L w) {s t : Socket}
    (hs : (b.owner s).isSome = true) (ht : (b.owner t).isSome = true) :
    w.Beside (L.socket s) (L.socket t) ↔ b.Beside s t := by
  simp only [Wiring.Beside, Blueprint.Beside, r.walk_socket_iff hs ht]

theorem onOddWalk_iff (r : Realizes host b.owner b.outline L w) {s : Socket}
    (hs : (b.owner s).isSome = true) :
    OnOddWalk w.LinkedTo (L.socket s) ↔ OnOddWalk b.Linked s := by
  simp only [OnOddWalk, r.walk_socket_iff hs hs]

theorem isSome_of_onOddWalk (r : Realizes host b.owner b.outline L w) {s : Socket}
    (odd : OnOddWalk b.Linked s) : (b.owner s).isSome = true := by
  obtain ⟨n, parity, walk⟩ := odd
  cases n with
  | zero => exact absurd Even.zero parity
  | succ n =>
    obtain ⟨t, -, linked⟩ := walk
    exact r.isSome_of_linked linked

theorem exists_socket_of_onOddWalk (r : Realizes host b.owner b.outline L w) {j : Nat}
    (odd : OnOddWalk w.LinkedTo j) :
    ∃ s, (b.owner s).isSome = true ∧ L.socket s = j ∧ OnOddWalk b.Linked s := by
  obtain ⟨n, parity, walk⟩ := id odd
  cases n with
  | zero => exact absurd Even.zero parity
  | succ n =>
    obtain ⟨k, -, linked⟩ := walk
    obtain ⟨s, hs, same⟩ := (r.socket_iff j).mp (linked.symm.isSocket r.sound)
    refine ⟨s, hs, same, ?_⟩
    rw [← same] at odd
    exact (r.onOddWalk_iff hs).mp odd

/-- The wiring has an odd closed walk exactly when the blueprint has one. -/
theorem odd_iff (r : Realizes host b.owner b.outline L w) :
    (∃ j, OnOddWalk w.LinkedTo j) ↔ b.Odd := by
  constructor
  · rintro ⟨j, odd⟩
    obtain ⟨s, -, -, odd'⟩ := r.exists_socket_of_onOddWalk odd
    exact ⟨s, odd'⟩
  · rintro ⟨s, odd⟩
    exact ⟨_, (r.onOddWalk_iff (r.isSome_of_onOddWalk odd)).mpr odd⟩

theorem links_nodup (r : Realizes host b.owner b.outline L w) : b.links.Nodup := by
  have ascending := r.linkAscending
  rw [List.pairwise_map] at ascending
  apply ascending.imp
  rintro x y less rfl
  exact Nat.lt_irrefl _ less

/-! ## Nodes -/

theorem mem_nodes (r : Realizes host b.owner b.outline L w) {s : Socket} {n : NodeOrigin}
    (owns : b.owner s = some n) : n ∈ b.nodes ∧ w.AttachedTo (L.node n) (L.socket s) := by
  obtain ⟨m, hm, owns', attached⟩ := r.owned s (Option.isSome_iff_exists.mpr ⟨n, owns⟩)
  rw [owns] at owns'
  cases owns'
  exact ⟨hm, attached⟩

theorem node_inj (r : Realizes host b.owner b.outline L w) {m n : NodeOrigin} (hm : m ∈ b.nodes)
    (hn : n ∈ b.nodes) (same : L.node m = L.node n) : m = n := by
  have left := (r.node_iff _ m).mpr ⟨hm, rfl⟩
  have right := (r.node_iff _ n).mpr ⟨hn, same.symm⟩
  rw [left] at right
  cases right
  rfl

open Classical in
/-- The joint of the node that owns the socket at a joint. -/
noncomputable def ownerAt (b : Blueprint) (L : Layout) (j : Nat) : Nat :=
  if h : ∃ s n, b.owner s = some n ∧ L.socket s = j then L.node h.choose_spec.choose else j

theorem ownerAt_socket (r : Realizes host b.owner b.outline L w) {s : Socket} {n : NodeOrigin}
    (owns : b.owner s = some n) : ownerAt b L (L.socket s) = L.node n := by
  have there : ∃ t m, b.owner t = some m ∧ L.socket t = L.socket s := ⟨s, n, owns, rfl⟩
  rw [ownerAt, dif_pos there]
  obtain ⟨owns', same⟩ := there.choose_spec.choose_spec
  have equal := r.distinct _ s (Option.isSome_iff_exists.mpr ⟨_, owns'⟩)
    (Option.isSome_iff_exists.mpr ⟨n, owns⟩) same
  exact congrArg L.node (Option.some.inj
    (owns'.symm.trans ((congrArg b.owner equal).trans owns)))

theorem rooted (r : Realizes host b.owner b.outline L w) : w.Rooted (ownerAt b L) where
  attached := by
    intro j hj
    obtain ⟨s, hs, rfl⟩ := (r.socket_iff j).mp hj
    obtain ⟨n, owns⟩ := Option.isSome_iff_exists.mp hs
    rw [r.ownerAt_socket owns]
    exact (r.mem_nodes owns).2
  single := r.single

theorem touching_iff (r : Realizes host b.owner b.outline L w) (balanced : ¬ b.Odd) {i j : Nat} :
    w.Touching (ownerAt b L) i j ↔ ∃ m n, b.Meets m n ∧ L.node m = i ∧ L.node n = j := by
  simp only [Touching, meets_iff balanced]
  constructor
  · rintro ⟨x, y, hx, hy, rfl, rfl, beside⟩
    obtain ⟨s, hs, rfl⟩ := (r.socket_iff x).mp hx
    obtain ⟨t, ht, rfl⟩ := (r.socket_iff y).mp hy
    obtain ⟨m, hm⟩ := Option.isSome_iff_exists.mp hs
    obtain ⟨n, hn⟩ := Option.isSome_iff_exists.mp ht
    exact ⟨m, n, ⟨s, t, hm, hn, (r.beside_iff hs ht).mp beside⟩, (r.ownerAt_socket hm).symm,
      (r.ownerAt_socket hn).symm⟩
  · rintro ⟨m, n, ⟨s, t, hm, hn, beside⟩, rfl, rfl⟩
    have hs : (b.owner s).isSome = true := Option.isSome_iff_exists.mpr ⟨m, hm⟩
    have ht : (b.owner t).isSome = true := Option.isSome_iff_exists.mpr ⟨n, hn⟩
    exact ⟨_, _, r.isSocket hs, r.isSocket ht, r.ownerAt_socket hm, r.ownerAt_socket hn,
      (r.beside_iff hs ht).mpr beside⟩

theorem mem_nodes_of_meets (r : Realizes host b.owner b.outline L w) {m n : NodeOrigin}
    (h : b.Meets m n) : m ∈ b.nodes ∧ n ∈ b.nodes := by
  obtain ⟨s, t, hm, hn, -⟩ := h
  exact ⟨(r.mem_nodes hm).1, (r.mem_nodes hn).1⟩

theorem merged_of_eqvGen (r : Realizes host b.owner b.outline L w) (balanced : ¬ b.Odd) {i j : Nat}
    (h : Relation.EqvGen (w.Touching (ownerAt b L)) i j) :
    i = j ∨ ∃ m ∈ b.nodes, ∃ n ∈ b.nodes, b.Merged m n ∧ L.node m = i ∧ L.node n = j := by
  induction h with
  | rel i j touching =>
    obtain ⟨m, n, meets, rfl, rfl⟩ := (r.touching_iff balanced).mp touching
    obtain ⟨hm, hn⟩ := r.mem_nodes_of_meets meets
    exact .inr ⟨m, hm, n, hn, .rel m n meets, rfl, rfl⟩
  | refl i => exact .inl rfl
  | symm i j _ ih =>
    rcases ih with rfl | ⟨m, hm, n, hn, merged, first, second⟩
    · exact .inl rfl
    · exact .inr ⟨n, hn, m, hm, merged.symm, second, first⟩
  | trans i j k _ _ ih ih' =>
    rcases ih with rfl | ⟨m, hm, n, hn, merged, rfl, middle⟩
    · exact ih'
    · rcases ih' with rfl | ⟨m', hm', n', hn', merged', middle', rfl⟩
      · exact .inr ⟨m, hm, n, hn, merged, rfl, middle⟩
      · obtain rfl := r.node_inj hn hm' (middle.trans middle'.symm)
        exact .inr ⟨m, hm, n', hn', merged.trans _ _ _ merged', rfl, rfl⟩

/-- Nodes are merged in the wiring exactly when the blueprint merges them. -/
theorem merged_iff (r : Realizes host b.owner b.outline L w) (balanced : ¬ b.Odd)
    {m n : NodeOrigin} (hm : m ∈ b.nodes) (hn : n ∈ b.nodes) :
    Relation.EqvGen (w.Touching (ownerAt b L)) (L.node m) (L.node n) ↔ b.Merged m n := by
  constructor
  · intro h
    rcases r.merged_of_eqvGen balanced h with same | ⟨m', hm', n', hn', merged, first, second⟩
    · rw [r.node_inj hm hn same]
      exact .refl n
    · obtain rfl := r.node_inj hm' hm first
      obtain rfl := r.node_inj hn' hn second
      exact merged
  · intro merged
    clear hm hn
    induction merged with
    | rel m n meets => exact .rel _ _ ((r.touching_iff balanced).mpr ⟨m, n, meets, rfl, rfl⟩)
    | refl m => exact .refl _
    | symm m n _ ih => exact ih.symm
    | trans l m n _ _ ih ih' => exact ih.trans _ _ _ ih'

end Realizes

end GraphSplice
