import GraphSplice.Proofs.Wiring.Soundness

/-!
Contraction as a redirection of wires. Merging classes of joints into their representatives sends
every end of a wire to the representative; of wires that become parallel in this way one is left,
while wires that were parallel from the start stay.
-/

namespace GraphSplice.Wiring

/-- `w'` has the wires of `w` with their ends sent along `q`. A wire that was moved is the only
one between its ends; a wire whose ends are sent to themselves stays. -/
structure Redirects (q : Nat → Nat) (w w' : Wiring) : Prop where
  origin : ∀ e wire', w'.wire? e = some wire' →
    ∃ wire, w.wire? e = some wire ∧ wire' = ⟨wire.ends.map q, wire.kind⟩
  cover : ∀ e wire, w.wire? e = some wire →
    ∃ f wire', w'.wire? f = some wire' ∧ wire'.ends.Joins (q wire.ends.first) (q wire.ends.second)
  keep : ∀ e wire, w.wire? e = some wire → wire.ends.map q = wire.ends → w'.wire? e = some wire
  single : ∀ e f x y a b, e ≠ f → w'.wire? e = some x → w'.wire? f = some y →
    x.ends.Joins a b → y.ends.Joins a b → w.wire? e = some x

namespace Redirects

theorem of_fixed {q : Nat → Nat} {w : Wiring}
    (fixed : ∀ e wire, w.wire? e = some wire → wire.ends.map q = wire.ends) : Redirects q w w where
  origin e wire h := ⟨wire, h, by rw [fixed e wire h]⟩
  cover e wire h := ⟨e, wire, h, .inl (fixed e wire h).symm⟩
  keep _ _ h _ := h
  single _ _ _ _ _ _ _ h _ _ _ := h

theorem refl (w : Wiring) : Redirects id w w := of_fixed fun _ _ _ => rfl

/-- Only the wires that come out matter. -/
theorem congr_wires {q : Nat → Nat} {w w' w'' : Wiring} (h : Redirects q w w')
    (same : ∀ e, w''.wire? e = w'.wire? e) : Redirects q w w'' where
  origin e wire there := h.origin e wire (same e ▸ there)
  cover e wire there := by
    obtain ⟨f, wire', there', joins⟩ := h.cover e wire there
    exact ⟨f, wire', (same f).trans there', joins⟩
  keep e wire there fixed := (same e).trans (h.keep e wire there fixed)
  single e f x y a b different hx hy := h.single e f x y a b different (same e ▸ hx) (same f ▸ hy)

/-- Redirections that only lead downwards compose. -/
theorem trans {p q : Nat → Nat} {w w' w'' : Wiring} (first : Redirects p w w')
    (second : Redirects q w' w'') (hp : ∀ j, p j ≤ j) (hq : ∀ j, q j ≤ j) :
    Redirects (fun j => q (p j)) w w'' := by
  refine { origin := ?origin, cover := ?cover, keep := ?keep, single := ?single }
  case origin =>
    intro e wire'' h
    obtain ⟨wire', h', rfl⟩ := second.origin e wire'' h
    obtain ⟨wire, found, rfl⟩ := first.origin e wire' h'
    exact ⟨wire, found, rfl⟩
  case cover =>
    intro e wire h
    obtain ⟨f, wire', h', joins⟩ := first.cover e wire h
    obtain ⟨g, wire'', h'', joins'⟩ := second.cover f wire' h'
    refine ⟨g, wire'', h'', ?_⟩
    rcases joins with same | same <;> rw [same] at joins'
    · exact joins'
    · exact Ends.joins_comm.mp joins'
  case keep =>
    intro e wire h fixed
    have fixed_of : ∀ j, q (p j) = j → p j = j ∧ q j = j := by
      intro j hj
      have low := hp j
      have lower := hq (p j)
      have same : p j = j := by omega
      exact ⟨same, by rw [same] at hj; exact hj⟩
    obtain ⟨⟨a, b⟩, kind⟩ := wire
    simp only [Ends.map, Ends.mk.injEq] at fixed
    obtain ⟨pa, qa⟩ := fixed_of a fixed.1
    obtain ⟨pb, qb⟩ := fixed_of b fixed.2
    refine second.keep e _ (first.keep e _ h ?_) ?_
    · simp [Ends.map, pa, pb]
    · simp [Ends.map, qa, qb]
  case single =>
    intro e f x y a b different hx hy joinsX joinsY
    have hx' := second.single e f x y a b different hx hy joinsX joinsY
    have hy' := second.single f e y x a b different.symm hy hx joinsY joinsX
    exact first.single e f x y a b different hx' hy' joinsX joinsY

/-- Only the values at the ends of wires matter. -/
theorem congr {p q : Nat → Nat} {w w' : Wiring} (h : Redirects p w w')
    (same : ∀ j, p j = q j) : Redirects q w w' := by
  obtain rfl : p = q := funext same
  exact h

end Redirects

/-! ## One wire -/

/-- Both joints are nodes or both are sockets. -/
def SameSort (w : Wiring) (a b : JointId) : Prop :=
  (w.IsNode a ∧ w.IsNode b) ∨ (w.IsSocket a ∧ w.IsSocket b)

/-- No wire lies inside the set. -/
def Apart (w : Wiring) (S : JointId → Prop) : Prop :=
  ∀ e wire, w.wire? e = some wire → ¬ (S wire.ends.first ∧ S wire.ends.second)

theorem Apart.not_joins {w : Wiring} {S : JointId → Prop} (apart : w.Apart S) {e : WireId}
    {wire : Wire} {a b : JointId} (h : w.wire? e = some wire) (ha : S a) (hb : S b) :
    ¬ wire.ends.Joins a b := by
  rintro (same | same)
  · exact apart e wire h (by rw [same]; exact ⟨ha, hb⟩)
  · exact apart e wire h (by rw [same]; exact ⟨hb, ha⟩)

/-- The joint a single member is sent to. -/
def redirect (source target j : Nat) : Nat := if j = source then target else j

theorem wire?_moveWire (w : Wiring) (e : WireId) (source target : JointId) (f : WireId) :
    (w.moveWire e source target).wire? f =
      if f = e then (w.wire? f).map fun wire => ⟨wire.ends.map (redirect source target), wire.kind⟩
      else w.wire? f := by
  simp only [moveWire, wire?_listWire, wire?_unlistWire]
  unfold wire?
  by_cases h : f = e
  · subst h
    simp only [Array.getElem?_modify, if_true]
    cases w.wires[f]? with
    | none => rfl
    | some cell => cases cell <;> rfl
  · simp [Array.getElem?_modify, h, Ne.symm h]

@[simp] theorem kind?_moveWire (w : Wiring) (e : WireId) (source target j : JointId) :
    (w.moveWire e source target).kind? j = w.kind? j := by
  simp only [moveWire, kind?_listWire, kind?_unlistWire]
  rfl

theorem adjacent_iff {w : Wiring} (sound : w.Sound) {a b : JointId} :
    w.Adjacent a b ↔ ∃ e wire, w.wire? e = some wire ∧ wire.ends.Joins a b := by
  unfold Adjacent opposite?
  constructor
  · rintro ⟨e, -, across⟩
    obtain ⟨wire, h, across⟩ := Option.bind_eq_some_iff.mp across
    exact ⟨e, wire, h, Ends.opposite?_eq_some_iff.mp across⟩
  · rintro ⟨e, wire, h, joins⟩
    refine ⟨e, sound.mem_incident_iff.mpr ⟨wire, h, joins.touches.1⟩, ?_⟩
    rw [h]
    exact Ends.opposite?_eq_some_iff.mpr joins

theorem count_incident_moveWire {w : Wiring} {e : WireId} {source target j : JointId}
    (live : w.IsLive j) (f : WireId) :
    ((w.moveWire e source target).incident j).count f =
      (if j = source ∧ f = e then 0 else (w.incident j).count f) +
        if j = target ∧ f = e then 1 else 0 := by
  have live' : (unlistWire { w with wires := (w.wires.modify e (·.map fun wire =>
      { wire with ends := wire.ends.map fun j => if j = source then target else j })) }
      source e).IsLive j := by
    rw [isLive_unlistWire]
    exact live
  simp only [moveWire]
  rw [count_incident_listWire _ _ _ live', incident_unlistWire]
  congr 1
  change List.count f (if j = source then (w.incident j).filter (· ≠ e) else w.incident j) = _
  by_cases h : j = source
  · by_cases hf : f = e
    · simp [h, hf, List.count_eq_zero]
    · rw [if_pos h, List.count_filter (by simpa using hf), if_neg (fun both => hf both.2)]
  · simp [h]

/-- Moving an end to a joint of the same sort that the wire does not touch. -/
theorem Sound.moveWire {w : Wiring} (sound : w.Sound) {e : WireId} {wire : Wire}
    {source target other : JointId} (h : w.wire? e = some wire)
    (joins : wire.ends.Joins source other) (different : source ≠ target) (hs : other ≠ source)
    (ht : other ≠ target) (sort : w.SameSort target source) :
    (w.moveWire e source target).Sound := by
  constructor
  case listed =>
    intro j live f
    have old : w.IsLive j := (isLive_congr (kind?_moveWire ..)).mp live
    rw [count_incident_moveWire old]
    by_cases hf : f = e
    · subst hf
      have moved : (w.moveWire f source target).wire? f =
          some ⟨wire.ends.map (redirect source target), wire.kind⟩ := by
        simp [wire?_moveWire, h]
      have before := sound.listed j old f
      rw [endsAt_of_wire? h] at before
      rw [endsAt_of_wire? moved, before]
      rcases joins with same | same <;> rw [same] <;>
        simp only [Ends.map, redirect, hs, Ends.toList, List.count_cons, List.count_nil,
          beq_iff_eq, if_true, if_false, and_true] <;>
        grind
    · have same : (w.moveWire e source target).wire? f = w.wire? f := by
        simp [wire?_moveWire, hf]
      rw [endsAt_congr same, ← sound.listed j old f]
      simp [hf]
  case attachment =>
    intro f ends' hf
    rw [wire?_moveWire] at hf
    rw [isNode_congr (kind?_moveWire ..), isSocket_congr (kind?_moveWire ..)]
    split at hf
    · next same =>
      subst same
      rw [h] at hf
      obtain ⟨x, kind⟩ := wire
      cases hf
      obtain ⟨node, socket⟩ := sound.attachment f x h
      rcases joins with same | same
      · cases same
        rcases sort with ⟨nodes, -⟩ | ⟨-, sockets⟩
        · simpa [Ends.map, redirect, hs] using And.intro nodes socket
        · exact absurd sockets node.not_isSocket
      · cases same
        rcases sort with ⟨-, nodes⟩ | ⟨sockets, -⟩
        · exact absurd socket nodes.not_isSocket
        · simpa [Ends.map, redirect, hs] using And.intro node sockets
    · exact sound.attachment f ends' hf
  case link =>
    intro f ends' origin hf
    rw [wire?_moveWire] at hf
    rw [isSocket_congr (kind?_moveWire ..), isSocket_congr (kind?_moveWire ..)]
    split at hf
    · next same =>
      subst same
      rw [h] at hf
      obtain ⟨x, kind⟩ := wire
      cases hf
      obtain ⟨first, second⟩ := sound.link f x origin h
      rcases sort with ⟨-, node⟩ | ⟨socket, -⟩
      · rcases joins with same | same <;> cases same
        · exact absurd first node.not_isSocket
        · exact absurd second node.not_isSocket
      · rcases joins with same | same <;> cases same
        · simpa [Ends.map, redirect, hs] using And.intro socket second
        · simpa [Ends.map, redirect, hs] using And.intro first socket
    · exact sound.link f ends' origin hf

end GraphSplice.Wiring
