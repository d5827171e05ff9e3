import GraphSplice.Proofs.Samples
import GraphSplice.Proofs.Wiring.Counting
import GraphSplice.Proofs.Wiring.Preparation
import GraphSplice.Proofs.Wiring.Settlement

/-!
What the merging of sockets decides and leaves. It fails exactly where some closed walk along links is
odd. Otherwise each component of links becomes one pair of linked sockets, the lowest of each side,
and these take over the attachments of their sides.
-/

namespace GraphSplice.Wiring

variable {D : Domain} {host : Host D} {w w' : Wiring} {owner p : Nat → Nat} {s : Nat}

/-- Each component of `w` has become one pair in `w'`. -/
structure Collapsed (w w' : Wiring) : Prop where
  sound : w'.Sound
  node : ∀ j origin, w'.kind? j = some (.node origin) ↔ w.kind? j = some (.node origin)
  /-- The lowest socket of each side stays. -/
  socket : ∀ s origin, w'.kind? s = some (.socket origin) ↔
    w.kind? s = some (.socket origin) ∧ ∀ t, w.Beside s t → s ≤ t
  /-- Of a component there are two sockets left, one of each side, linked to each other only. -/
  pair : ∀ s, w.links s ≠ [] → ∃ a b, a ≠ b ∧ w.Beside s a ∧ ¬ w.Beside s b ∧
    (∀ u, w'.IsSocket u ∧ Connected w.LinkedTo s u ↔ u = a ∨ u = b) ∧
    (∀ u, w'.LinkedTo a u ↔ u = b) ∧ ∀ u, w'.LinkedTo b u ↔ u = a
  attached : ∀ s, w'.IsSocket s → (w'.attachedNodes s).Nodup ∧
    ∀ n, n ∈ w'.attachedNodes s ↔ ∃ t, w.Beside s t ∧ n ∈ w.attachedNodes t
  vacant : ∀ s, w.IsSocket s → w.links s = [] →
    w'.joint? s = w.joint? s ∧ ∀ e ∈ w.incident s, w'.wire? e = w.wire? e

theorem eq_of_beside_of_vacant (sound : w.Sound) (vacant : w.links s = []) {t : Nat}
    (h : w.Beside s t) : t = s := by
  rcases beside_cases sound h with same | ⟨linked, -⟩
  · exact same.symm
  · exact absurd vacant linked

theorem joint?_eq_of_kind?_of_incident {j : JointId} (kind : w'.kind? j = w.kind? j)
    (incident : w'.incident j = w.incident j) : w'.joint? j = w.joint? j := by
  rw [incident_eq, incident_eq] at incident
  unfold kind? at kind
  cases found : w.joint? j with
  | none =>
    rw [found, Option.map_none] at kind
    exact Option.map_eq_none_iff.mp kind
  | some joint =>
    cases found' : w'.joint? j with
    | none =>
      rw [found, found'] at kind
      cases kind
    | some joint' =>
      rw [found, found'] at kind incident
      obtain ⟨k, wires⟩ := joint
      obtain ⟨k', wires'⟩ := joint'
      cases kind
      cases incident
      rfl

/-- A socket without links lists its attachment and nothing else. -/
theorem incident_of_vacant (sound : w.Sound) {e : WireId} {n : JointId}
    (found : w.wire? e = some ⟨⟨n, s⟩, .attachment⟩)
    (single : ∀ f m, w.wire? f = some ⟨⟨m, s⟩, .attachment⟩ → f = e) (vacant : w.links s = []) :
    w.incident s = [e] := by
  obtain ⟨node, socket⟩ := sound.attachment e _ found
  have only : ∀ f ∈ w.incident s, f = e := by
    intro f hf
    obtain ⟨⟨ends, kind⟩, found', touches⟩ := sound.mem_incident_iff.mp hf
    cases kind with
    | attachment =>
      rcases touches with rfl | rfl
      · exact absurd socket (sound.attachment f ends found').1.not_isSocket
      · exact single f ends.first found'
    | link origin =>
      have linked := (mem_links_iff sound).mpr ⟨ends, origin, found', touches⟩
      rw [vacant] at linked
      cases linked
  have once : (w.incident s).count e = 1 := by
    have different : n ≠ s := by
      rintro rfl
      exact node.not_isSocket socket
    rw [sound.listed s socket.isLive, endsAt_of_wire? found]
    simp [Ends.toList, different]
  rw [List.eq_replicate_of_mem only, List.count_replicate_self] at once
  rw [List.eq_replicate_of_mem only, once]
  rfl

/-- A socket with no two attachments to one node lists no node twice. -/
theorem nodup_attachedNodes (sound : w.Sound) (socket : w.IsSocket s) (apart : ¬ w.LinkedTo s s)
    (single : ∀ e f n, w.wire? e = some ⟨⟨n, s⟩, .attachment⟩ →
      w.wire? f = some ⟨⟨n, s⟩, .attachment⟩ → e = f) : (w.attachedNodes s).Nodup := by
  have attachment : ∀ {e ends n}, w.wire? e = some ⟨ends, .attachment⟩ →
      ends.opposite? s = some n → ends = ⟨n, s⟩ := by
    intro e ends n found across
    rcases Ends.opposite?_eq_some_iff.mp across with rfl | same
    · exact absurd socket (sound.attachment e _ found).1.not_isSocket
    · exact same
  have distinct : (w.incident s).Nodup := by
    apply sound.nodup_incident
    rintro e ⟨ends, kind⟩ found joins
    cases kind with
    | attachment =>
      obtain rfl := attachment found (Ends.opposite?_eq_some_iff.mpr joins)
      exact (sound.attachment e _ found).1.not_isSocket socket
    | link origin => exact apart ⟨e, ends, origin, found, joins⟩
  refine distinct.filterMap ?_
  intro e f n he hf
  split at he
  · next x found =>
    split at hf
    · next y found' =>
      obtain rfl := attachment found he
      obtain rfl := attachment found' hf
      exact single e f n found found'
    · cases hf
  · cases he

namespace SocketsMerged

variable (merged : SocketsMerged w p w') (sound : w.Sound)

include merged

theorem fixed_iff : p s = s ↔ ∀ t, w.Beside s t → s ≤ t := by
  constructor
  · intro own t beside
    exact own.symm.le.trans (merged.least.least s t beside)
  · intro lowest
    exact Nat.le_antisymm (merged.least.le (beside_equivalence w) s)
      (lowest _ (merged.least.related s))

include sound

theorem isSocket_target {t : Nat} (ht : w.IsSocket t) : w'.IsSocket (p t) :=
  merged.isSocket_iff.mpr ⟨Wiring.isSocket_target sound merged.least ht,
    merged.least.idem (beside_equivalence w) t⟩

theorem linkedTo_iff {a b : Nat} :
    w'.LinkedTo a b ↔ ∃ s t, w.LinkedTo s t ∧ p s = a ∧ p t = b := by
  constructor
  · rintro ⟨e, ends, o, found, joins⟩
    obtain ⟨⟨⟨s, t⟩, kind⟩, old, same⟩ := merged.redirects.origin e _ found
    simp only [Ends.map, Wire.mk.injEq] at same
    obtain ⟨rfl, rfl⟩ := same
    rcases joins with same | same
    · cases same
      exact ⟨s, t, ⟨e, _, o, old, .inl rfl⟩, rfl, rfl⟩
    · cases same
      exact ⟨t, s, ⟨e, _, o, old, .inr rfl⟩, rfl, rfl⟩
  · rintro ⟨s, t, linked, rfl, rfl⟩
    have first := merged.isSocket_target sound (linked.isSocket sound)
    have second := merged.isSocket_target sound (linked.symm.isSocket sound)
    obtain ⟨e, ends, o, found, joins⟩ := linked
    obtain ⟨f, ⟨ends', kind⟩, found', joins'⟩ := merged.redirects.cover e _ found
    have target : ends'.Joins (p s) (p t) := (ends.map p).joins_self.of_parallel (joins.map p) joins'
    cases kind with
    | link o' => exact ⟨f, ends', o', found', target⟩
    | attachment =>
      have node := (merged.sound.attachment f _ found').1
      rcases target with rfl | rfl
      · exact absurd first node.not_isSocket
      · exact absurd second node.not_isSocket

/-- All links at the image of a socket lead to the image of what it is linked to. -/
theorem linkedTo_target_iff {t u : Nat} (linked : w.LinkedTo s t) :
    w'.LinkedTo (p s) u ↔ u = p t := by
  have equivalence := beside_equivalence w
  rw [merged.linkedTo_iff sound]
  constructor
  · rintro ⟨a, b, linked', same, rfl⟩
    have beside := (merged.least.eq_iff equivalence).mp same
    exact (merged.least.eq_iff equivalence).mpr (.of_linkedTo linked' linked beside)
  · rintro rfl
    exact ⟨s, t, linked, rfl, rfl⟩

theorem pair (balanced : ∀ j, ¬ OnOddWalk w.LinkedTo j) (linked : w.links s ≠ []) :
    ∃ a b, a ≠ b ∧ w.Beside s a ∧ ¬ w.Beside s b ∧
      (∀ u, w'.IsSocket u ∧ Connected w.LinkedTo s u ↔ u = a ∨ u = b) ∧
      (∀ u, w'.LinkedTo a u ↔ u = b) ∧ ∀ u, w'.LinkedTo b u ↔ u = a := by
  have equivalence := beside_equivalence w
  obtain ⟨k, joined⟩ := (links_ne_nil_iff sound).mp linked
  have across := not_beside_of_linkedTo balanced joined
  have nearS := merged.least.related s
  have nearK := merged.least.related k
  refine ⟨p s, p k, ?_, nearS, ?_, ?_, fun u => merged.linkedTo_target_iff sound joined,
    fun u => merged.linkedTo_target_iff sound joined.symm⟩
  · exact fun same => across ((merged.least.eq_iff equivalence).mp same)
  · exact fun beside => across (equivalence.trans beside (equivalence.symm nearK))
  · intro u
    constructor
    · -- A walk of even length leads to the side of `s`, any other one to that of `k`.
      rintro ⟨socket, n, walk⟩
      have own := (merged.isSocket_iff.mp socket).2
      by_cases even : Even n
      · have beside : w.Beside s u := ⟨n, even, walk⟩
        exact .inl (own.symm.trans ((merged.least.eq_iff equivalence).mpr beside).symm)
      · have beside : w.Beside k u := by
          refine ⟨1 + n, ?_, (Walk.single joined.symm).append walk⟩
          rw [Nat.add_comm]
          exact Nat.even_add_one.mpr even
        exact .inr (own.symm.trans ((merged.least.eq_iff equivalence).mpr beside).symm)
    · rintro (rfl | rfl)
      · obtain ⟨n, -, walk⟩ := nearS
        exact ⟨merged.isSocket_target sound (joined.isSocket sound), n, walk⟩
      · obtain ⟨n, -, walk⟩ := nearK
        exact ⟨merged.isSocket_target sound (joined.symm.isSocket sound), 1 + n,
          (Walk.single joined).append walk⟩

variable (rooted : w.Rooted owner)

include rooted

theorem mem_attachedNodes_iff (socket : w'.IsSocket s) {n : Nat} :
    n ∈ w'.attachedNodes s ↔ ∃ t, w.Beside s t ∧ n ∈ w.attachedNodes t := by
  have equivalence := beside_equivalence w
  obtain ⟨old, own⟩ := merged.isSocket_iff.mp socket
  rw [Wiring.mem_attachedNodes_iff merged.sound socket, merged.attachedTo_iff sound rooted]
  constructor
  · rintro ⟨t, ht, same, rfl⟩
    refine ⟨t, (merged.least.eq_iff equivalence).mp (own.trans same.symm), ?_⟩
    exact (Wiring.mem_attachedNodes_iff sound ht).mpr (rooted.attached t ht)
  · rintro ⟨t, beside, there⟩
    have ht : w.IsSocket t := by
      rcases beside_cases sound beside with rfl | ⟨-, linked⟩
      · exact old
      · exact isSocket_of_links sound linked
    have attached := (Wiring.mem_attachedNodes_iff sound ht).mp there
    exact ⟨t, ht, ((merged.least.eq_iff equivalence).mpr beside).symm.trans own,
      (rooted.owner_eq sound attached).symm⟩

theorem nodup_attachedNodes (balanced : ∀ j, ¬ OnOddWalk w.LinkedTo j) (socket : w'.IsSocket s) :
    (w'.attachedNodes s).Nodup := by
  refine Wiring.nodup_attachedNodes merged.sound socket ?_ ?_
  · rw [merged.linkedTo_iff sound]
    rintro ⟨a, b, linked, first, second⟩
    apply not_beside_of_linkedTo balanced linked
    exact (merged.least.eq_iff (beside_equivalence w)).mp (first.trans second.symm)
  · intro e f n he hf
    by_contra different
    have old := merged.redirects.single e f _ _ n s different he hf (.inl rfl) (.inl rfl)
    have old' := merged.redirects.single f e _ _ n s (Ne.symm different) hf he (.inl rfl) (.inl rfl)
    exact different (rooted.single e f n n s old old')

theorem vacant (socket : w.IsSocket s) (empty : w.links s = []) :
    w'.joint? s = w.joint? s ∧ ∀ e ∈ w.incident s, w'.wire? e = w.wire? e := by
  have equivalence := beside_equivalence w
  have own : p s = s := eq_of_beside_of_vacant sound empty (merged.least.related s)
  have alone : ∀ t, p t = s → t = s := fun t same => eq_of_beside_of_vacant sound empty
    ((merged.least.eq_iff equivalence).mp (own.trans same.symm))
  have attached := rooted.attached s socket
  have node := attached.isNode sound
  obtain ⟨e, found⟩ := attached
  have kept : w'.wire? e = some ⟨⟨owner s, s⟩, .attachment⟩ := by
    refine merged.redirects.keep e _ found ?_
    simp only [Ends.map, target_of_isNode sound merged.least node, own]
  have listed : w.incident s = [e] :=
    incident_of_vacant sound found (fun f m h => rooted.single f e m _ s h found) empty
  -- Nothing is sent to the socket, so it has no other wire afterwards.
  have empty' : w'.links s = [] := by
    by_contra linked
    obtain ⟨u, joined⟩ := (links_ne_nil_iff merged.sound).mp linked
    obtain ⟨a, b, joined', same, -⟩ := (merged.linkedTo_iff sound).mp joined
    obtain rfl := alone a same
    exact joined'.symm.links_ne_nil sound empty
  have single' : ∀ f m, w'.wire? f = some ⟨⟨m, s⟩, .attachment⟩ → f = e := by
    intro f m h
    obtain ⟨n, t, old, -, same⟩ := merged.redirects.attachment_origin h
    obtain rfl := alone t same
    exact rooted.single f e n _ _ old found
  have listed' : w'.incident s = [e] := incident_of_vacant merged.sound kept single' empty'
  constructor
  · refine joint?_eq_of_kind?_of_incident ?_ (listed'.trans listed.symm)
    rw [merged.kind, if_pos own]
  · intro f hf
    rw [listed, List.mem_singleton] at hf
    rw [hf, kept, found]

theorem collapsed (balanced : ∀ j, ¬ OnOddWalk w.LinkedTo j) : Collapsed w w' where
  sound := merged.sound
  node j origin := merged.node_iff sound
  socket s origin := by
    rw [merged.kind, ← merged.fixed_iff]
    split
    · next own => simp [own]
    · next other => simp [other]
  pair s linked := merged.pair sound balanced linked
  attached s socket := ⟨merged.nodup_attachedNodes sound rooted balanced socket,
    fun n => merged.mem_attachedNodes_iff sound rooted socket⟩
  vacant s socket empty := merged.vacant sound rooted socket empty

end SocketsMerged

/-- Merging decides whether the links have an odd closed walk. If so it reports the size of the first
component that has one, and else it folds away all but two sockets of each component. -/
theorem mergeSockets_decides_parity (built : host.Built) (prepared : Prepared host w) :
    ((∃ c, w.mergeSockets true = .error c) ↔ ∃ s, OnOddWalk w.LinkedTo s) ∧
    (∀ c, w.mergeSockets true = .error c → ∃ s, OnOddWalk w.LinkedTo s ∧
      (∀ t, OnOddWalk w.LinkedTo t → s ≤ t) ∧
      Derivation.reconcile w true = .error (.oddCycle (w.componentOf s).length)) ∧
    ∀ w' folded, w.mergeSockets true = .ok (w', folded) →
      folded + 2 * w.firstSockets.length = w.linkedSockets.length ∧ Collapsed w w' := by
  obtain ⟨sound, ⟨owner, rooted⟩, -⟩ := prepared.formed built.consistent
  have spec := mergeSockets_spec sound true (.inl rfl)
  cases merged : w.mergeSockets true with
  | error c =>
    rw [merged] at spec
    obtain ⟨start, component, odd, lowest⟩ := spec
    refine ⟨⟨fun _ => ⟨start, odd⟩, fun _ => ⟨c, rfl⟩⟩, ?_, nofun⟩
    intro d same
    cases same
    refine ⟨start, odd, lowest, ?_⟩
    rw [← component.length_sockets sound, Derivation.reconcile, merged]
  | ok result =>
    obtain ⟨w₁, count⟩ := result
    rw [merged] at spec
    obtain ⟨balanced, sound₁, kinds, redirects⟩ := spec
    refine ⟨⟨nofun, ?_⟩, nofun, ?_⟩
    · rintro ⟨s, odd⟩
      exact absurd odd (balanced s)
    · intro w' folded same
      cases same
      have all : SocketsMerged w w.socketTarget w₁ :=
        ⟨sound₁, least_socketTarget sound balanced, kinds, redirects⟩
      exact ⟨folded_of_mergeSockets sound merged, all.collapsed sound rooted balanced⟩

open Samples in
/-- One edge is split twice at once: at each of its sockets two fresh ones become one. -/
theorem mergeSockets_decides_parity_split_twice :
    ∃ w w', Prepared (shaped 3 [(0, 1), (1, 2)]) w ∧ w.mergeSockets true = .ok (w', 2) ∧
      2 + 2 * w.firstSockets.length = w.linkedSockets.length ∧ Collapsed w w' := by
  let host := shaped 3 [(0, 1), (1, 2)]
  obtain ⟨w, inserted, folded⟩ : ∃ w,
      ((single splitEdge).resolveAll host [applyAt [0, 1] [0], applyAt [0, 1] [0]] >>=
        fun batch => Insertion.applyAll host batch
          (Cutting.applyAll host batch ⟨ofGraph host, ()⟩).wiring) = .ok w ∧
      (w.mergeSockets true).toOption.map (·.2) = some 2 := exists_of_check (by decide +kernel)
  have built := built_shaped 3 [(0, 1), (1, 2)]
  obtain ⟨batch, -, inserted⟩ := bind_ok inserted
  have prepared := prepared_of_batch built.consistent inserted
  obtain ⟨⟨w', _⟩, merged, rfl⟩ := Option.map_eq_some_iff.mp folded
  rw [toOption_eq_some_iff] at merged
  exact ⟨w, w', prepared, merged,
    (mergeSockets_decides_parity built prepared).2.2 w' 2 merged⟩

end GraphSplice.Wiring
