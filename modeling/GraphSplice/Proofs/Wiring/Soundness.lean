import GraphSplice.Proofs.Wiring.Arena
import Mathlib.Data.List.Nodup

/-!
Sound wirings: the incidence lists agree with the wires, an attachment leads from a node to a
socket, and a link joins two sockets. Every arena operation keeps a wiring sound.
-/

namespace GraphSplice.Wiring

structure Sound (w : Wiring) : Prop where
  /-- A live joint lists each wire as often as an end of the wire sits there. -/
  listed : ∀ j, w.IsLive j → ∀ e, (w.incident j).count e = w.endsAt e j
  attachment : ∀ e ends, w.wire? e = some ⟨ends, .attachment⟩ →
    w.IsNode ends.first ∧ w.IsSocket ends.second
  link : ∀ e ends origin, w.wire? e = some ⟨ends, .link origin⟩ →
    w.IsSocket ends.first ∧ w.IsSocket ends.second

namespace Sound

variable {w : Wiring}

theorem isLive_ends (sound : w.Sound) {e : WireId} {wire : Wire} (h : w.wire? e = some wire) :
    w.IsLive wire.ends.first ∧ w.IsLive wire.ends.second := by
  obtain ⟨ends, kind⟩ := wire
  cases kind with
  | attachment =>
    obtain ⟨node, socket⟩ := sound.attachment e ends h
    exact ⟨node.isLive, socket.isLive⟩
  | link origin =>
    obtain ⟨first, second⟩ := sound.link e ends origin h
    exact ⟨first.isLive, second.isLive⟩

theorem isLive_of_touches (sound : w.Sound) {e : WireId} {wire : Wire} {j : JointId}
    (h : w.wire? e = some wire) (touches : wire.ends.Touches j) : w.IsLive j := by
  obtain ⟨first, second⟩ := sound.isLive_ends h
  rcases touches with rfl | rfl
  · exact first
  · exact second

theorem mem_incident_iff (sound : w.Sound) {e : WireId} {j : JointId} :
    e ∈ w.incident j ↔ ∃ wire, w.wire? e = some wire ∧ wire.ends.Touches j := by
  by_cases live : w.IsLive j
  · rw [← List.count_pos_iff, sound.listed j live e]
    cases he : w.wire? e with
    | none => simp [endsAt_of_none he]
    | some wire => simp [endsAt_of_wire? he, Ends.mem_toList]
  · rw [incident_of_not_isLive live]
    constructor
    · intro h
      cases h
    · rintro ⟨wire, he, touches⟩
      exact absurd (sound.isLive_of_touches he touches) live

/-- A joint that ends no wire twice lists no wire twice. -/
theorem nodup_incident (sound : w.Sound) {j : JointId}
    (single : ∀ e wire, w.wire? e = some wire → ¬ wire.ends.Joins j j) :
    (w.incident j).Nodup := by
  by_cases live : w.IsLive j
  · rw [List.nodup_iff_count_le_one]
    intro e
    rw [sound.listed j live e]
    cases he : w.wire? e with
    | none => simp [endsAt_of_none he]
    | some wire =>
      have distinct := single e wire he
      rw [endsAt_of_wire? he]
      obtain ⟨⟨a, b⟩, kind⟩ := wire
      simp only [Ends.Joins, or_self, Ends.mk.injEq] at distinct
      simp only [Ends.toList, List.count_cons, List.count_nil, beq_iff_eq]
      split <;> split <;> simp_all
  · rw [incident_of_not_isLive live]
    exact List.nodup_nil

/-- Soundness depends on the wires, the kinds and the lists only. -/
theorem of_lists {w' : Wiring} (sound : w.Sound) (kinds : ∀ j, w'.kind? j = w.kind? j)
    (wires : ∀ e wire, w'.wire? e = some wire → w.wire? e = some wire)
    (lists : ∀ j, w'.IsLive j → ∀ e, (w'.incident j).count e = w'.endsAt e j) : w'.Sound where
  listed := lists
  attachment e ends h := by
    rw [isNode_congr (kinds _), isSocket_congr (kinds _)]
    exact sound.attachment e ends (wires e _ h)
  link e ends origin h := by
    rw [isSocket_congr (kinds _), isSocket_congr (kinds _)]
    exact sound.link e ends origin (wires e _ h)

theorem bare (hostOrder hostSize : Nat) : Sound ⟨#[], #[], hostOrder, hostSize⟩ where
  listed j live := by simp [IsLive, joint?] at live
  attachment e ends h := by simp [wire?] at h
  link e ends origin h := by simp [wire?] at h

/-! ## Adding -/

theorem addJoint (sound : w.Sound) (kind : JointKind) : (w.addJoint kind).Sound := by
  have kept : ∀ j k, w.kind? j = some k → (w.addJoint kind).kind? j = some k := by
    intro j k h
    rw [kind?_addJoint]
    split
    · next fresh =>
      subst fresh
      simp at h
    · exact h
  constructor
  · intro j live e
    rw [incident_addJoint, endsAt_congr (wire?_addJoint w kind e)]
    by_cases old : w.IsLive j
    · exact sound.listed j old e
    · rw [incident_of_not_isLive old]
      cases he : w.wire? e with
      | none => simp [endsAt_of_none he]
      | some wire =>
        have away : ¬ wire.ends.Touches j := fun h => old (sound.isLive_of_touches he h)
        rw [← Ends.mem_toList, ← List.count_eq_zero] at away
        rw [endsAt_of_wire? he, away, List.count_nil]
  · intro e ends h
    obtain ⟨⟨o, first⟩, o', second⟩ := sound.attachment e ends h
    exact ⟨⟨o, kept _ _ first⟩, o', kept _ _ second⟩
  · intro e ends origin h
    obtain ⟨⟨o, first⟩, o', second⟩ := sound.link e ends origin h
    exact ⟨⟨o, kept _ _ first⟩, o', kept _ _ second⟩

theorem listed_addWire (sound : w.Sound) (a b : JointId) (kind : WireKind) {j : JointId}
    (live : (w.addWire a b kind).IsLive j) (e : WireId) :
    ((w.addWire a b kind).incident j).count e = (w.addWire a b kind).endsAt e j := by
  have old : w.IsLive j := (isLive_congr (kind?_addWire ..)).mp live
  rw [count_incident_addWire w a b kind old, sound.listed j old]
  by_cases he : e = w.nextWire
  · subst he
    rw [endsAt_of_none (wire?_nextWire w)]
    simp [endsAt, wire?_addWire, Ends.toList]
  · have same : (w.addWire a b kind).wire? e = w.wire? e := by simp [wire?_addWire, he]
    simp [he, endsAt_congr same]

theorem addAttachment (sound : w.Sound) {node socket : JointId} (hn : w.IsNode node)
    (hs : w.IsSocket socket) : (w.addWire node socket .attachment).Sound := by
  constructor
  · exact fun j live e => sound.listed_addWire _ _ _ live e
  · intro e ends h
    rw [isNode_congr (kind?_addWire ..), isSocket_congr (kind?_addWire ..)]
    rw [wire?_addWire] at h
    split at h
    · cases h
      exact ⟨hn, hs⟩
    · exact sound.attachment e ends h
  · intro e ends origin h
    rw [isSocket_congr (kind?_addWire ..), isSocket_congr (kind?_addWire ..)]
    rw [wire?_addWire] at h
    split at h
    · cases h
    · exact sound.link e ends origin h

theorem addLink (sound : w.Sound) {a b : JointId} (ha : w.IsSocket a) (hb : w.IsSocket b)
    (origin : LinkOrigin) : (w.addLink a b origin).Sound := by
  unfold Wiring.addLink
  constructor
  · exact fun j live e => sound.listed_addWire _ _ _ live e
  · intro e ends h
    rw [isNode_congr (kind?_addWire ..), isSocket_congr (kind?_addWire ..)]
    rw [wire?_addWire] at h
    split at h
    · cases h
    · exact sound.attachment e ends h
  · intro e ends other h
    rw [isSocket_congr (kind?_addWire ..), isSocket_congr (kind?_addWire ..)]
    rw [wire?_addWire] at h
    split at h
    · cases h
      exact ⟨ha, hb⟩
    · exact sound.link e ends other h

end Sound

/-! ## Removing -/

section Removing

variable {w : Wiring}

theorem wire?_removeWire (w : Wiring) (e f : WireId) :
    (w.removeWire e).wire? f = if f = e then none else w.wire? f := by
  unfold removeWire
  cases he : w.wire? e with
  | none =>
    by_cases h : f = e
    · subst h
      simp [he]
    · simp [h]
  | some wire =>
    simp only [wire?_unlistWire]
    unfold wire?
    by_cases h : f = e
    · subst h
      have inside := lt_size_of_wire? he
      simp [inside]
    · simp [h, Ne.symm h]

theorem wire?_of_removeWire {e f : WireId} {x : Wire} (h : (w.removeWire e).wire? f = some x) :
    w.wire? f = some x := by
  rw [wire?_removeWire] at h
  split at h
  · cases h
  · exact h

@[simp] theorem kind?_removeWire (w : Wiring) (e : WireId) (j : JointId) :
    (w.removeWire e).kind? j = w.kind? j := by
  unfold removeWire
  cases w.wire? e with
  | none => rfl
  | some wire =>
    simp only [kind?_unlistWire]
    rfl

theorem incident_removeWire (sound : w.Sound) (e : WireId) (j : JointId) :
    (w.removeWire e).incident j = (w.incident j).filter (· ≠ e) := by
  have unlisted : e ∉ w.incident j → (w.incident j).filter (· ≠ e) = w.incident j := by
    intro h
    rw [List.filter_eq_self]
    intro f hf
    exact decide_eq_true fun same => h (same ▸ hf)
  unfold removeWire
  cases he : w.wire? e with
  | none =>
    refine (unlisted ?_).symm
    rw [sound.mem_incident_iff]
    rintro ⟨wire, h, -⟩
    rw [he] at h
    cases h
  | some wire =>
    have same : incident { w with wires := w.wires.setIfInBounds e none } j = w.incident j := rfl
    simp only [incident_unlistWire, same]
    by_cases first : j = wire.ends.first <;> by_cases second : j = wire.ends.second
    · simp [← first, ← second]
    · simp [← first, second]
    · simp [first, ← second]
    · simp only [first, second, if_false]
      refine (unlisted ?_).symm
      rw [sound.mem_incident_iff]
      rintro ⟨found, h, touches⟩
      rw [he] at h
      cases h
      rcases touches with h | h
      · exact first h.symm
      · exact second h.symm

theorem Sound.removeWire (sound : w.Sound) (e : WireId) : (w.removeWire e).Sound := by
  refine sound.of_lists (kind?_removeWire w e) (fun f wire => wire?_of_removeWire) ?_
  intro j live f
  have old : w.IsLive j := (isLive_congr (kind?_removeWire ..)).mp live
  rw [incident_removeWire sound]
  by_cases h : f = e
  · subst h
    rw [endsAt_of_none (by simp [wire?_removeWire])]
    simp [List.count_eq_zero]
  · have same : (w.removeWire e).wire? f = w.wire? f := by simp [wire?_removeWire, h]
    rw [List.count_filter (by simpa using h), sound.listed j old, endsAt_congr same]

theorem sound_removeWires (sound : w.Sound) (wires : List WireId) :
    (wires.foldl (fun w e => w.removeWire e) w).Sound := by
  induction wires generalizing w with
  | nil => exact sound
  | cons e rest ih => exact ih (sound.removeWire e)

theorem wire?_removeWires (w : Wiring) (wires : List WireId) (f : WireId) :
    (wires.foldl (fun w e => w.removeWire e) w).wire? f =
      if f ∈ wires then none else w.wire? f := by
  induction wires generalizing w with
  | nil => simp
  | cons e rest ih =>
    rw [List.foldl_cons, ih, wire?_removeWire]
    by_cases h : f = e <;> simp [h]

theorem kind?_removeWires (w : Wiring) (wires : List WireId) (j : JointId) :
    (wires.foldl (fun w e => w.removeWire e) w).kind? j = w.kind? j := by
  induction wires generalizing w with
  | nil => rfl
  | cons e rest ih => rw [List.foldl_cons, ih, kind?_removeWire]

theorem kind?_removeJoint (w : Wiring) (j i : JointId) :
    (w.removeJoint j).kind? i = if i = j then none else w.kind? i := by
  rw [← kind?_removeWires w (w.incident j) i]
  simp only [removeJoint]
  unfold kind? joint?
  by_cases h : i = j
  · subst h
    simp only [if_true, Array.getElem?_setIfInBounds]
    split <;> simp_all
  · simp [h, Ne.symm h]

theorem kind?_of_removeJoint {i j : JointId} {k : JointKind}
    (h : (w.removeJoint i).kind? j = some k) : w.kind? j = some k := by
  rw [kind?_removeJoint] at h
  split at h
  · cases h
  · exact h

theorem wire?_removeJoint (sound : w.Sound) {j : JointId} {e : WireId} {wire : Wire} :
    (w.removeJoint j).wire? e = some wire ↔ w.wire? e = some wire ∧ ¬ wire.ends.Touches j := by
  have unfolded : (w.removeJoint j).wire? e = if e ∈ w.incident j then none else w.wire? e :=
    wire?_removeWires w (w.incident j) e
  rw [unfolded]
  by_cases listed : e ∈ w.incident j
  · obtain ⟨found, he, touches⟩ := sound.mem_incident_iff.mp listed
    simp only [listed, if_true, he]
    constructor
    · intro h
      cases h
    · rintro ⟨h, away⟩
      cases h
      exact absurd touches away
  · simp only [listed, if_false]
    constructor
    · intro h
      exact ⟨h, fun touches => listed (sound.mem_incident_iff.mpr ⟨wire, h, touches⟩)⟩
    · exact fun h => h.1

theorem Sound.removeJoint (sound : w.Sound) (j : JointId) : (w.removeJoint j).Sound := by
  have emptied := sound_removeWires sound (w.incident j)
  have kept : ∀ {e wire i k}, (w.removeJoint j).wire? e = some wire → wire.ends.Touches i →
      w.kind? i = some k → (w.removeJoint j).kind? i = some k := by
    intro e wire i k h touches hk
    have away := ((wire?_removeJoint sound).mp h).2
    have other : i ≠ j := by
      rintro rfl
      exact away touches
    rw [kind?_removeJoint, if_neg other, hk]
  constructor
  · intro i live e
    have other : i ≠ j := by
      rintro rfl
      rw [isLive_iff_kind?] at live
      simp [kind?_removeJoint] at live
    have old : ((w.incident j).foldl (fun w e => w.removeWire e) w).IsLive i := by
      rw [isLive_iff_kind?] at live ⊢
      rw [kind?_removeWires]
      simpa [kind?_removeJoint, other] using live
    have lists : (w.removeJoint j).incident i =
        ((w.incident j).foldl (fun w e => w.removeWire e) w).incident i := by
      simp only [Wiring.removeJoint, incident, joint?]
      rw [Array.getElem?_setIfInBounds_ne (Ne.symm other)]
    rw [lists, emptied.listed i old]
    rfl
  · intro e ends h
    obtain ⟨⟨o, first⟩, o', second⟩ := sound.attachment e ends ((wire?_removeJoint sound).mp h).1
    exact ⟨⟨o, kept h (.inl rfl) first⟩, o', kept h (.inr rfl) second⟩
  · intro e ends origin h
    obtain ⟨⟨o, first⟩, o', second⟩ := sound.link e ends origin ((wire?_removeJoint sound).mp h).1
    exact ⟨⟨o, kept h (.inl rfl) first⟩, o', kept h (.inr rfl) second⟩

/-- Takes several joints away. -/
theorem removeJoints_spec (sound : w.Sound) (joints : List JointId) :
    let w' := joints.foldl (fun w j => w.removeJoint j) w
    w'.Sound ∧ (∀ j, w'.kind? j = if j ∈ joints then none else w.kind? j) ∧
      ∀ e wire, w'.wire? e = some wire ↔
        w.wire? e = some wire ∧ ∀ j ∈ joints, ¬ wire.ends.Touches j := by
  induction joints generalizing w with
  | nil => exact ⟨sound, by simp, by simp⟩
  | cons i rest ih =>
    obtain ⟨sound', kinds, wires⟩ := ih (sound.removeJoint i)
    refine ⟨sound', ?_, ?_⟩
    · intro j
      rw [List.foldl_cons, kinds, kind?_removeJoint]
      by_cases h : j = i <;> simp [h]
    · intro e wire
      rw [List.foldl_cons, wires, wire?_removeJoint sound, and_assoc, List.forall_mem_cons]

end Removing

end GraphSplice.Wiring
