import GraphSplice.Proofs.Wiring.Reconciliation
import GraphSplice.Wiring.Assembly

/-!
The links of a settled wiring. All links at a socket lead to one other socket, and there is more
than one only if the two were linked directly more than once before.
-/

namespace GraphSplice.Wiring

variable {w w' : Wiring} {owner p q : Nat → Nat}

/-- The links between two sockets. -/
def between (w : Wiring) (s t : Nat) : List WireId :=
  (w.links s).filter fun e => w.opposite? e s = some t

theorem mem_between_iff (sound : w.Sound) {e : WireId} {s t : Nat} :
    e ∈ w.between s t ↔ ∃ ends origin, w.wire? e = some ⟨ends, .link origin⟩ ∧ ends.Joins s t := by
  simp only [between, List.mem_filter, mem_links_iff sound, decide_eq_true_eq]
  constructor
  · rintro ⟨⟨ends, origin, found, -⟩, across⟩
    unfold opposite? at across
    rw [found] at across
    exact ⟨ends, origin, found, Ends.opposite?_eq_some_iff.mp across⟩
  · rintro ⟨ends, origin, found, joins⟩
    refine ⟨⟨ends, origin, found, joins.touches.1⟩, ?_⟩
    unfold opposite?
    rw [found]
    exact Ends.opposite?_eq_some_iff.mpr joins

theorem nodup_links (sound : w.Sound) {s : Nat} (apart : ¬ w.LinkedTo s s) (hs : w.IsSocket s) :
    (w.links s).Nodup := by
  apply List.Nodup.filter
  apply sound.nodup_incident
  rintro e ⟨ends, kind⟩ found joins
  cases kind with
  | attachment =>
    apply (sound.attachment e ends found).1.not_isSocket
    rcases joins with rfl | rfl <;> exact hs
  | link origin => exact apart ⟨e, ends, origin, found, joins⟩

/-- A wiring without odd closed walks links no socket to itself. -/
theorem not_linkedTo_self (balanced : ∀ j, ¬ OnOddWalk w.LinkedTo j) (s : Nat) :
    ¬ w.LinkedTo s s := fun linked => balanced s ⟨1, by decide, Walk.single linked⟩

/-- Linked sockets are on different sides. -/
theorem not_beside_of_linkedTo (balanced : ∀ j, ¬ OnOddWalk w.LinkedTo j) {a b : Nat}
    (linked : w.LinkedTo a b) : ¬ w.Beside a b := by
  rintro ⟨n, even, walk⟩
  apply balanced b
  refine ⟨n + 1, Nat.even_add_one.not.mpr (not_not.mpr even), ?_⟩
  have closed := (Walk.single linked.symm).append walk
  rwa [Nat.add_comm] at closed

theorem Beside.of_linkedTo {a b c d : Nat} (first : w.LinkedTo a b) (second : w.LinkedTo c d)
    (h : w.Beside a c) : w.Beside b d := by
  obtain ⟨n, even, walk⟩ := h
  refine ⟨1 + n + 1, ?_, ((Walk.single first.symm).append walk).append (Walk.single second)⟩
  have two : 1 + n + 1 = n + 2 := by omega
  rw [two]
  exact even.add ⟨1, rfl⟩

namespace Settled

variable {s t : Nat}

theorem linkedTo_origin (settled : Settled w owner p q w') (h : w'.LinkedTo s t) :
    ∃ a b, w.LinkedTo a b ∧ p a = s ∧ p b = t := by
  obtain ⟨e, ends, o, found, joins⟩ := h
  obtain ⟨⟨a, b⟩, old, rfl⟩ := settled.origin e ends o found
  rcases joins with same | same
  · cases same
    exact ⟨a, b, ⟨e, _, o, old, .inl rfl⟩, rfl, rfl⟩
  · cases same
    exact ⟨b, a, ⟨e, _, o, old, .inr rfl⟩, rfl, rfl⟩

theorem not_linkedTo_self (settled : Settled w owner p q w')
    (balanced : ∀ j, ¬ OnOddWalk w.LinkedTo j) (s : Nat) : ¬ w'.LinkedTo s s := by
  intro h
  obtain ⟨a, b, linked, first, second⟩ := settled.linkedTo_origin h
  apply not_beside_of_linkedTo balanced linked
  exact (settled.leastSocket.eq_iff (beside_equivalence w)).mp (first.trans second.symm)

theorem linkedTo_unique (settled : Settled w owner p q w') {t' : Nat} (h : w'.LinkedTo s t)
    (h' : w'.LinkedTo s t') : t = t' := by
  have equivalence := beside_equivalence w
  obtain ⟨a, b, linked, rfl, rfl⟩ := settled.linkedTo_origin h
  obtain ⟨c, d, linked', same, rfl⟩ := settled.linkedTo_origin h'
  have beside := (settled.leastSocket.eq_iff equivalence).mp same.symm
  exact (settled.leastSocket.eq_iff equivalence).mpr (.of_linkedTo linked linked' beside)

theorem fixed_of_isSocket (settled : Settled w owner p q w') (hs : w'.IsSocket s) : p s = s :=
  ((settled.socket s).mp hs).2.1

theorem links_ne_nil (settled : Settled w owner p q w') (sound : w.Sound) (hs : w'.IsSocket s) :
    w'.links s ≠ [] := by
  obtain ⟨-, fixed, linked⟩ := (settled.socket s).mp hs
  obtain ⟨k, e, ends, o, found, joins⟩ := (links_ne_nil_iff sound).mp linked
  obtain ⟨f, ends', o', found', joins'⟩ := settled.cover e ends o found
  have mapped := joins.map p
  rw [fixed] at mapped
  exact (links_ne_nil_iff settled.sound).mpr
    ⟨p k, f, ends', o', found', (ends.map p).joins_self.of_parallel mapped joins'⟩

theorem mem_links_of_between (settled : Settled w owner p q w') (sound : w.Sound)
    (linked : w'.LinkedTo s t) {e : WireId} (he : e ∈ w.between s t) : e ∈ w'.links s := by
  obtain ⟨ends, o, found, joins⟩ := (mem_between_iff sound).mp he
  have first := settled.fixed_of_isSocket (linked.isSocket settled.sound)
  have second := settled.fixed_of_isSocket (linked.symm.isSocket settled.sound)
  refine (mem_links_iff settled.sound).mpr ⟨ends, o, settled.keep e ends o found ?_,
    joins.touches.1⟩
  rcases joins with rfl | rfl
  · simp [Ends.map, first, second]
  · simp [Ends.map, first, second]

/-- Two links at a socket are what they were before. -/
theorem mem_between_of_ne (settled : Settled w owner p q w') (sound : w.Sound)
    (linked : w'.LinkedTo s t) {e f : WireId} (he : e ∈ w'.links s) (hf : f ∈ w'.links s)
    (different : e ≠ f) : e ∈ w.between s t := by
  have joined : ∀ {g}, g ∈ w'.links s → ∃ ends o, w'.wire? g = some ⟨ends, .link o⟩ ∧
      ends.Joins s t := by
    intro g hg
    obtain ⟨ends, o, found, touches⟩ := (mem_links_iff settled.sound).mp hg
    obtain ⟨u, joins⟩ := touches.joins
    obtain rfl := settled.linkedTo_unique linked ⟨g, ends, o, found, joins⟩
    exact ⟨ends, o, found, joins⟩
  obtain ⟨x, o, foundE, joinsE⟩ := joined he
  obtain ⟨y, o', foundF, joinsF⟩ := joined hf
  have old := settled.single e f x y s t o o' different foundE foundF joinsE joinsF
  exact (mem_between_iff sound).mpr ⟨x, o, old, joinsE⟩

/-- A socket has one link, or as many as there were direct ones. -/
theorem length_links (settled : Settled w owner p q w') (sound : w.Sound)
    (balanced : ∀ j, ¬ OnOddWalk w.LinkedTo j) (linked : w'.LinkedTo s t) :
    (w'.links s).length = max 1 (w.between s t).length := by
  have socket' := linked.isSocket settled.sound
  have socket := ((settled.socket s).mp socket').1
  have nodup' := nodup_links settled.sound (settled.not_linkedTo_self balanced s) socket'
  have nodup : (w.between s t).Nodup :=
    (nodup_links sound (Wiring.not_linkedTo_self balanced s) socket).filter _
  cases direct : w.between s t with
  | nil =>
    obtain ⟨e, ends, o, found, joins⟩ := linked
    have listed : e ∈ w'.links s :=
      (mem_links_iff settled.sound).mpr ⟨ends, o, found, joins.touches.1⟩
    have all : ∀ f ∈ w'.links s, f = e := by
      intro f hf
      by_contra different
      have mem := settled.mem_between_of_ne sound ⟨e, ends, o, found, joins⟩ hf listed different
      rw [direct] at mem
      cases mem
    rw [List.eq_replicate_of_mem all] at nodup' ⊢
    simp only [List.length_replicate, List.length_nil, Nat.max_eq_left (Nat.zero_le 1)]
    have atMost := List.nodup_replicate.mp nodup'
    have atLeast := List.length_pos_of_mem listed
    omega
  | cons f rest =>
    have hf : f ∈ w.between s t := by
      rw [direct]
      exact List.mem_cons_self
    have same : (w'.links s).Perm (w.between s t) := by
      rw [List.perm_ext_iff_of_nodup nodup' nodup]
      intro e
      constructor
      · intro he
        by_cases equal : e = f
        · rw [equal]
          exact hf
        · exact settled.mem_between_of_ne sound linked he
            (settled.mem_links_of_between sound linked hf) equal
      · exact settled.mem_links_of_between sound linked
    rw [same.length_eq, direct]
    simp

theorem nodeOf_eq (settled : Settled w owner p q w') (hs : w'.IsSocket s) :
    w'.nodeOf s = if (w'.links s).length = 1 then .ok (q (owner s))
      else .error ⟨1, (w'.links s).length⟩ := by
  unfold nodeOf
  rw [settled.hangs s hs]
  split
  · next nodes links same one =>
    cases same
    rw [if_pos one]
  · next nodes links different =>
    rw [if_neg fun one => different _ rfl one]
    rfl

/-- The first socket with more than one link is reported. -/
theorem malformation?_spec (settled : Settled w owner p q w') :
    match w'.malformation? with
    | none => ∀ s, w'.IsSocket s → (w'.links s).length = 1
    | some m => ∃ s, w'.IsSocket s ∧ (w'.links s).length ≠ 1 ∧ m = ⟨1, (w'.links s).length⟩ ∧
        ∀ t < s, w'.IsSocket t → (w'.links t).length = 1 := by
  cases found : w'.malformation? with
  | none =>
    intro s hs
    have passed := List.findSome?_eq_none_iff.mp found s (mem_liveSockets_iff.mpr hs)
    by_contra other
    rw [settled.nodeOf_eq hs, if_neg other] at passed
    cases passed
  | some m =>
    obtain ⟨before, s, after, split, reported, passed⟩ := List.findSome?_eq_some_iff.mp found
    have hs : w'.IsSocket s := by
      apply mem_liveSockets_iff.mp
      rw [split]
      exact List.mem_append_right _ List.mem_cons_self
    have several : (w'.links s).length ≠ 1 := by
      intro one
      rw [settled.nodeOf_eq hs, if_pos one] at reported
      cases reported
    rw [settled.nodeOf_eq hs, if_neg several] at reported
    refine ⟨s, hs, several, (Option.some.inj reported).symm, ?_⟩
    intro t less ht
    have listed := mem_liveSockets_iff.mpr ht
    have ascending := liveSockets_ascending w'
    rw [split] at listed ascending
    have earlier : t ∈ before := by
      rcases List.mem_append.mp listed with earlier | later
      · exact earlier
      · have above := (List.pairwise_append.mp ascending).2.1
        rcases List.mem_cons.mp later with rfl | later
        · exact absurd less (Nat.lt_irrefl _)
        · exact absurd less (Nat.lt_asymm ((List.pairwise_cons.mp above).1 t later))
    have none := passed t earlier
    by_contra other
    rw [settled.nodeOf_eq ht, if_neg other] at none
    cases none

end Settled

end GraphSplice.Wiring
