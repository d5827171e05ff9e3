import GraphSplice.Proofs.Blueprint.Transport

/-!
Why a batch is refused. The sockets that the arenas list first are host sockets, so the component
or the socket that is reported depends on the blueprint only.
-/

namespace GraphSplice

open Wiring

namespace Realizes

open Blueprint

variable {N E : Type} {host : Graph N E} {b : Blueprint} {L : Layout} {w w' : Wiring}
  {p q : Nat → Nat}

theorem socket_host (r : Realizes host b.owner b.outline L w) {e : EdgeId} {side : Side}
    (hs : (b.owner (.host e side)).isSome = true) :
    L.socket (.host e side) = host.order + place e side := by
  have slot := (r.hostSocket e side hs).2
  rw [slot, place, socketSlot]
  exact Nat.add_assoc ..

/-- Host sockets come before fresh ones. -/
theorem socket_host_lt (r : Realizes host b.owner b.outline L w) {e : EdgeId} {side side' : Side}
    {o : Provenance} (hs : (b.owner (.host e side)).isSome = true)
    (ht : (b.owner (.fresh o side')).isSome = true) :
    L.socket (.host e side) < L.socket (.fresh o side') := by
  have inside := (r.hostSocket e side hs).1
  have above := r.freshSocket o side' ht
  rw [r.socket_host hs, place]
  have two : side.toNat < 2 := by cases side <;> simp [Side.toNat]
  omega

theorem socket_target (r : Realizes host b.owner b.outline L w) (least : Least w.Beside p)
    {s : Socket} (hs : (b.owner s).isSome = true) :
    ∃ t, (b.owner t).isSome = true ∧ L.socket t = p (L.socket s) ∧ b.Beside s t := by
  obtain ⟨t, ht, same⟩ := (r.socket_iff _).mp (isSocket_target r.sound least (r.isSocket hs))
  refine ⟨t, ht, same, ?_⟩
  have related := least.related (L.socket s)
  rw [← same] at related
  exact (r.beside_iff hs ht).mp related

theorem foremost_iff (r : Realizes host b.owner b.outline L w) (least : Least w.Beside p)
    {e : EdgeId} {side : Side} (hs : (b.owner (.host e side)).isSome = true) :
    b.Foremost e side ↔ p (L.socket (.host e side)) = L.socket (.host e side) := by
  constructor
  · rintro ⟨-, foremost⟩
    obtain ⟨t, ht, same, beside⟩ := r.socket_target least hs
    have below := least.le (beside_equivalence w) (L.socket (.host e side))
    rw [← same] at below ⊢
    cases t with
    | host e' side' =>
      have before := foremost e' side' beside
      rw [r.socket_host hs, r.socket_host ht] at below ⊢
      omega
    | fresh o side' => exact absurd (r.socket_host_lt hs ht) (Nat.not_lt.mpr below)
  · intro fixed
    refine ⟨hs, ?_⟩
    intro e' side' beside
    have ht : (b.owner (.host e' side')).isSome = true := by
      obtain ⟨n, -, walk⟩ := beside
      exact r.isSome_of_walk hs walk
    have below := least.least _ _ ((r.beside_iff hs ht).mpr beside)
    rw [fixed, r.socket_host hs, r.socket_host ht] at below
    omega

theorem length_between (r : Realizes host b.owner b.outline L w)
    (balanced : ∀ j, ¬ OnOddWalk w.LinkedTo j) {s t : Socket} (hs : (b.owner s).isSome = true)
    (ht : (b.owner t).isSome = true) :
    (w.between (L.socket s) (L.socket t)).length = (b.between s t).length := by
  have same : (w.between (L.socket s) (L.socket t)).Perm
      ((b.between s t).map fun x => L.link x.origin) := by
    rw [List.perm_ext_iff_of_nodup]
    · intro e
      rw [mem_between_iff r.sound, List.mem_map]
      constructor
      · rintro ⟨ends, origin, found, joins⟩
        obtain ⟨x, hx, rfl, rfl, rfl⟩ := (r.link_iff e ends origin).mp found
        obtain ⟨t', same, joined⟩ := joins.of_map fun side equal =>
          r.distinct _ s (r.ends x hx side) hs equal
        obtain ⟨side, atSide⟩ := Ends.touches_iff_get.mp joined.touches.2
        obtain rfl := r.distinct t' t (by rw [← atSide]; exact r.ends x hx side) ht same
        exact ⟨x, List.mem_filter.mpr ⟨hx, by simpa using joined⟩, rfl⟩
      · rintro ⟨x, hx, rfl⟩
        obtain ⟨mem, joins⟩ := List.mem_filter.mp hx
        have joins' : x.ends.Joins s t := by simpa using joins
        exact ⟨_, _, (r.link_iff _ _ _).mpr ⟨x, mem, rfl, rfl, rfl⟩, joins'.map L.socket⟩
    · exact (nodup_links r.sound (not_linkedTo_self balanced _) (r.isSocket hs)).filter _
    · have ascending : ((b.between s t).map fun x => L.link x.origin).Pairwise (· < ·) :=
        r.linkAscending.sublist (List.Sublist.map _ List.filter_sublist)
      exact ascending.imp fun less => Nat.ne_of_lt less
  rw [same.length_eq, List.length_map]

/-- Only a host socket can be linked twice. -/
theorem host_of_two_between (r : Realizes host b.owner b.outline L w) (proper : b.Proper)
    {s t : Socket} (several : 2 ≤ (b.between s t).length) : ∃ e side, s = .host e side := by
  cases s with
  | host e side => exact ⟨e, side, rfl⟩
  | fresh o side =>
    have nodup : (b.between (.fresh o side) t).Nodup := r.links_nodup.filter _
    have linked : ∀ x ∈ b.between (.fresh o side) t, x ∈ b.links ∧
        x.ends.Touches (.fresh o side) := by
      intro x hx
      obtain ⟨mem, joins⟩ := List.mem_filter.mp hx
      have joins' : x.ends.Joins (.fresh o side) t := by simpa using joins
      exact ⟨mem, joins'.touches.1⟩
    cases found : b.between (.fresh o side) t with
    | nil =>
      rw [found] at several
      cases several
    | cons x rest =>
      cases rest with
      | nil =>
        rw [found] at several
        simp at several
      | cons y rest =>
        rw [found] at nodup linked
        obtain ⟨hx, touches⟩ := linked x List.mem_cons_self
        obtain ⟨hy, touches'⟩ := linked y (List.mem_cons_of_mem _ List.mem_cons_self)
        obtain rfl := proper.eq_of_touches_fresh hx hy touches touches'
        exact absurd List.mem_cons_self (List.nodup_cons.mp nodup).1

theorem between_comm (b : Blueprint) (s t : Socket) : b.between s t = b.between t s := by
  unfold Blueprint.between
  congr 1
  funext x
  exact decide_eq_decide.mpr Ends.joins_comm

/-- The foremost sockets that are crowded are those with as many links after merging. -/
theorem crowded_iff (r : Realizes host b.owner b.outline L w) (proper : b.Proper)
    (balanced : ∀ j, ¬ OnOddWalk w.LinkedTo j) (settled : Settled w (ownerAt b L) p q w')
    {j n : Nat} (several : 2 ≤ n) : w'.IsSocket j ∧ (w'.links j).length = n ↔
      ∃ e side, L.socket (.host e side) = j ∧ b.Crowded e side n := by
  constructor
  · rintro ⟨hj, rfl⟩
    obtain ⟨socket, fixed, -⟩ := (settled.socket j).mp hj
    obtain ⟨s, hs, rfl⟩ := (r.socket_iff j).mp socket
    obtain ⟨k, linked⟩ := (links_ne_nil_iff settled.sound).mp
      (settled.links_ne_nil r.sound hj)
    have other := linked.symm.isSocket settled.sound
    obtain ⟨socket', fixed', -⟩ := (settled.socket k).mp other
    obtain ⟨t, ht, rfl⟩ := (r.socket_iff k).mp socket'
    have count := settled.length_links r.sound balanced linked
    rw [r.length_between balanced hs ht] at count
    have enough : 2 ≤ (b.between s t).length := by omega
    obtain ⟨e, side, rfl⟩ := r.host_of_two_between proper enough
    obtain ⟨e', side', rfl⟩ := r.host_of_two_between proper (by rwa [between_comm])
    refine ⟨e, side, rfl, several, (r.foremost_iff settled.leastSocket hs).mpr fixed, e', side',
      (r.foremost_iff settled.leastSocket ht).mpr fixed', ?_⟩
    omega
  · rintro ⟨e, side, rfl, -, foremost, e', side', foremost', rfl⟩
    have hs := foremost.1
    have ht := foremost'.1
    have fixed := (r.foremost_iff settled.leastSocket hs).mp foremost
    have fixed' := (r.foremost_iff settled.leastSocket ht).mp foremost'
    obtain ⟨x, hx⟩ := List.exists_mem_of_length_pos
      (l := b.between (.host e side) (.host e' side')) (by omega)
    obtain ⟨mem, joins⟩ := List.mem_filter.mp hx
    have joins' : x.ends.Joins (.host e side) (.host e' side') := by simpa using joins
    have found := (r.link_iff _ _ _).mpr ⟨x, mem, rfl, rfl, rfl⟩
    have linked : w'.LinkedTo (L.socket (.host e side)) (L.socket (.host e' side')) := by
      refine ⟨_, _, _, settled.keep _ _ _ found ?_, joins'.map L.socket⟩
      rcases joins' with same | same
      · simp only [same, Ends.map, fixed, fixed']
      · simp only [same, Ends.map, fixed, fixed']
    have count := settled.length_links r.sound balanced linked
    rw [r.length_between balanced hs ht] at count
    exact ⟨linked.isSocket settled.sound, by omega⟩

/-- A settled wiring is refused exactly for the first crowded socket. -/
theorem malformation?_spec (r : Realizes host b.owner b.outline L w) (proper : b.Proper)
    (balanced : ∀ j, ¬ OnOddWalk w.LinkedTo j) (settled : Settled w (ownerAt b L) p q w') :
    match w'.malformation? with
    | none => (∀ n, ¬ b.FirstCrowded n) ∧ ∀ j, w'.IsSocket j → (w'.links j).length = 1
    | some m => m.attachments = 1 ∧ b.FirstCrowded m.links := by
  have outcome := settled.malformation?_spec
  cases found : w'.malformation? with
  | none =>
    rw [found] at outcome
    refine ⟨?_, outcome⟩
    rintro n ⟨e, side, crowded, -⟩
    obtain ⟨socket, count⟩ :=
      (r.crowded_iff proper balanced settled crowded.1).mpr ⟨e, side, rfl, crowded⟩
    have one := outcome _ socket
    have two := crowded.1
    omega
  | some m =>
    rw [found] at outcome
    obtain ⟨j, socket, several, rfl, earlier⟩ := outcome
    refine ⟨rfl, ?_⟩
    have enough : 2 ≤ (w'.links j).length := by
      have linked := List.length_pos_iff.mpr (settled.links_ne_nil r.sound socket)
      omega
    obtain ⟨e, side, rfl, crowded⟩ :=
      (r.crowded_iff proper balanced settled enough).mp ⟨socket, rfl⟩
    refine ⟨e, side, crowded, ?_⟩
    intro e' side' n crowded'
    obtain ⟨socket', count⟩ :=
      (r.crowded_iff proper balanced settled crowded'.1).mpr ⟨e', side', rfl, crowded'⟩
    by_contra before
    have less : L.socket (.host e' side') < L.socket (.host e side) := by
      rw [r.socket_host crowded.2.1.1, r.socket_host crowded'.2.1.1]
      omega
    have one := earlier _ less socket'
    have two := crowded'.1
    omega

/-- The component that is reported is that of the first host socket on an odd walk. -/
theorem firstOdd (r : Realizes host b.owner b.outline L w) (proper : b.Proper) {c : Component}
    {start : Nat} (component : w.IsComponent start c) (odd : OnOddWalk w.LinkedTo start)
    (lowest : ∀ j, OnOddWalk w.LinkedTo j → start ≤ j) : b.FirstOdd c.sockets.length := by
  obtain ⟨s, hs, rfl, odd'⟩ := r.exists_socket_of_onOddWalk odd
  obtain ⟨e, side, -, oddHost⟩ := proper.exists_host_of_onOddWalk odd'
  have hhost := r.isSome_of_onOddWalk oddHost
  have below := lowest _ ((r.onOddWalk_iff hhost).mpr oddHost)
  cases s with
  | fresh o side' => exact absurd (r.socket_host_lt hhost hs) (Nat.not_lt.mpr below)
  | host e₀ side₀ =>
    refine ⟨e₀, side₀, odd', ?_, ?_⟩
    · intro e' side' another
      have ht := r.isSome_of_onOddWalk another
      have after := lowest _ ((r.onOddWalk_iff ht).mpr another)
      rw [r.socket_host hs, r.socket_host ht] at after
      omega
    · have inverse : ∀ j, ∃ t, w.IsSocket j → (b.owner t).isSome = true ∧ L.socket t = j := by
        intro j
        by_cases socket : w.IsSocket j
        · obtain ⟨t, ht, same⟩ := (r.socket_iff j).mp socket
          exact ⟨t, fun _ => ⟨ht, same⟩⟩
        · exact ⟨.host e₀ side₀, fun h => absurd h socket⟩
      choose socketAt located using inverse
      have listed : ∀ x ∈ c.sockets, (b.owner (socketAt x.1)).isSome = true ∧
          L.socket (socketAt x.1) = x.1 := fun x hx =>
        located x.1 (isSocket_of_links r.sound (component.linked x hx))
      refine ⟨c.sockets.map fun x => socketAt x.1, ?_, List.length_map _, ?_⟩
      · apply List.Nodup.of_map L.socket
        rw [List.map_map]
        have places : c.sockets.map (L.socket ∘ fun x => socketAt x.1) = c.sockets.map (·.1) :=
          List.map_congr_left fun x hx => (listed x hx).2
        rw [places]
        exact component.nodup
      · intro t
        have member : (∃ i, (L.socket t, i) ∈ c.sockets) ↔
            ∃ n, ∃ u, L.socket u = L.socket t ∧ Walk b.Linked n (.host e₀ side₀) u := by
          rw [component.mem_iff]
          exact exists_congr fun n => r.walk_iff hs
        constructor
        · intro mem
          obtain ⟨x, hx, rfl⟩ := List.mem_map.mp mem
          obtain ⟨ht, same⟩ := listed x hx
          obtain ⟨n, u, same', walk⟩ := member.mp ⟨x.2, by rw [same]; exact hx⟩
          obtain rfl := r.distinct _ _ (r.isSome_of_walk hs walk) ht same'
          exact ⟨n, walk⟩
        · rintro ⟨n, walk⟩
          obtain ⟨i, hx⟩ := member.mpr ⟨n, t, rfl, walk⟩
          obtain ⟨ht, same⟩ := listed _ hx
          refine List.mem_map.mpr ⟨_, hx, ?_⟩
          exact r.distinct _ _ ht (r.isSome_of_walk hs walk) same

end Realizes

end GraphSplice
