import GraphSplice.Proofs.Ends
import GraphSplice.Wiring.Merging
import Mathlib.Data.List.Basic

/-!
What each arena operation does to the joints, the wires and the incidence lists of a wiring.
-/

namespace GraphSplice

namespace Wiring

/-- What stands at a position. -/
def kind? (w : Wiring) (j : JointId) : Option JointKind := (w.joint? j).map (·.kind)

def IsNode (w : Wiring) (j : JointId) : Prop := ∃ origin, w.kind? j = some (.node origin)

def IsSocket (w : Wiring) (j : JointId) : Prop := ∃ origin, w.kind? j = some (.socket origin)

/-- How many ends of the wire sit at the joint. -/
def endsAt (w : Wiring) (e : WireId) (j : JointId) : Nat :=
  match w.wire? e with
  | none => 0
  | some wire => wire.ends.toList.count j

theorem isLive_iff_kind? {w : Wiring} {j : JointId} : w.IsLive j ↔ ∃ k, w.kind? j = some k := by
  simp [IsLive, kind?, Option.isSome_iff_exists]

theorem isNode_congr {w w' : Wiring} {j : JointId} (h : w'.kind? j = w.kind? j) :
    w'.IsNode j ↔ w.IsNode j := by simp [IsNode, h]

theorem isSocket_congr {w w' : Wiring} {j : JointId} (h : w'.kind? j = w.kind? j) :
    w'.IsSocket j ↔ w.IsSocket j := by simp [IsSocket, h]

theorem isLive_congr {w w' : Wiring} {j : JointId} (h : w'.kind? j = w.kind? j) :
    w'.IsLive j ↔ w.IsLive j := by simp [isLive_iff_kind?, h]

theorem IsNode.isLive {w : Wiring} {j : JointId} (h : w.IsNode j) : w.IsLive j := by
  obtain ⟨origin, h⟩ := h
  exact isLive_iff_kind?.mpr ⟨_, h⟩

theorem IsSocket.isLive {w : Wiring} {j : JointId} (h : w.IsSocket j) : w.IsLive j := by
  obtain ⟨origin, h⟩ := h
  exact isLive_iff_kind?.mpr ⟨_, h⟩

theorem IsNode.not_isSocket {w : Wiring} {j : JointId} (h : w.IsNode j) : ¬ w.IsSocket j := by
  obtain ⟨origin, h⟩ := h
  rintro ⟨other, h'⟩
  rw [h] at h'
  cases h'

theorem isSocket_iff {w : Wiring} {j : JointId} : w.isSocket j = true ↔ w.IsSocket j := by
  unfold isSocket IsSocket kind?
  cases w.joint? j with
  | none => simp
  | some joint => cases h : joint.kind <;> simp [h, JointKind.isSocket]

theorem lt_size_of_isLive {w : Wiring} {j : JointId} (h : w.IsLive j) : j < w.joints.size := by
  by_contra outside
  simp [IsLive, joint?, Array.getElem?_eq_none (Nat.le_of_not_lt outside)] at h

theorem incident_of_not_isLive {w : Wiring} {j : JointId} (h : ¬ w.IsLive j) :
    w.incident j = [] := by
  unfold incident
  cases hj : w.joint? j with
  | none => rfl
  | some joint => simp [IsLive, hj] at h

theorem lt_size_of_wire? {w : Wiring} {e : WireId} {wire : Wire} (h : w.wire? e = some wire) :
    e < w.wires.size := by
  by_contra outside
  simp [wire?, Array.getElem?_eq_none (Nat.le_of_not_lt outside)] at h

@[simp] theorem wire?_nextWire (w : Wiring) : w.wire? w.nextWire = none := by
  simp [wire?, nextWire]

@[simp] theorem kind?_nextJoint (w : Wiring) : w.kind? w.nextJoint = none := by
  simp [kind?, joint?, nextJoint]

theorem endsAt_of_wire? {w : Wiring} {e : WireId} {wire : Wire} (h : w.wire? e = some wire)
    (j : JointId) : w.endsAt e j = wire.ends.toList.count j := by simp [endsAt, h]

theorem endsAt_of_none {w : Wiring} {e : WireId} (h : w.wire? e = none) (j : JointId) :
    w.endsAt e j = 0 := by simp [endsAt, h]

theorem endsAt_congr {w w' : Wiring} {e : WireId} (h : w'.wire? e = w.wire? e) (j : JointId) :
    w'.endsAt e j = w.endsAt e j := by simp [endsAt, h]

theorem incident_eq (w : Wiring) (j : JointId) :
    w.incident j = ((w.joint? j).map (·.incident)).getD [] := by
  unfold incident
  cases w.joint? j <;> rfl

/-! ## Incidence lists -/

section Lists

variable (w : Wiring) (j : JointId) (e : WireId)

theorem joint?_modifyJoint (f : Joint → Joint) (i : JointId) :
    (w.modifyJoint j f).joint? i = if i = j then (w.joint? i).map f else w.joint? i := by
  simp only [modifyJoint, joint?, Array.getElem?_modify]
  by_cases h : j = i
  · subst h
    cases w.joints[j]? <;> simp
  · simp [h, Ne.symm h]

@[simp] theorem wire?_listWire (f : WireId) : (w.listWire j e).wire? f = w.wire? f := rfl

@[simp] theorem wire?_unlistWire (f : WireId) : (w.unlistWire j e).wire? f = w.wire? f := rfl

@[simp] theorem kind?_listWire (i : JointId) : (w.listWire j e).kind? i = w.kind? i := by
  simp only [kind?, listWire, joint?_modifyJoint]
  split <;> simp [Function.comp_def]

@[simp] theorem kind?_unlistWire (i : JointId) : (w.unlistWire j e).kind? i = w.kind? i := by
  simp only [kind?, unlistWire, joint?_modifyJoint]
  split <;> simp [Function.comp_def]

theorem incident_listWire (i : JointId) :
    (w.listWire j e).incident i =
      if i = j ∧ w.IsLive i then w.incident i ++ [e] else w.incident i := by
  simp only [incident_eq, listWire, joint?_modifyJoint, IsLive]
  by_cases h : i = j
  · subst h
    cases w.joint? i <;> simp
  · simp [h]

@[simp] theorem isLive_listWire (i : JointId) : (w.listWire j e).IsLive i ↔ w.IsLive i := by
  simp only [isLive_iff_kind?, kind?_listWire]

@[simp] theorem isLive_unlistWire (i : JointId) : (w.unlistWire j e).IsLive i ↔ w.IsLive i := by
  simp only [isLive_iff_kind?, kind?_unlistWire]

theorem count_incident_listWire {i : JointId} (live : w.IsLive i) (f : WireId) :
    ((w.listWire j e).incident i).count f =
      (w.incident i).count f + if i = j ∧ f = e then 1 else 0 := by
  rw [incident_listWire]
  by_cases h : i = j
  · subst h
    simp only [live, and_self, if_true, true_and, List.count_append, List.count_singleton,
      beq_iff_eq]
    congr 2
    exact propext eq_comm
  · simp [h]

theorem incident_unlistWire (i : JointId) :
    (w.unlistWire j e).incident i =
      if i = j then (w.incident i).filter (· ≠ e) else w.incident i := by
  simp only [incident_eq, unlistWire, joint?_modifyJoint]
  by_cases h : i = j
  · subst h
    cases w.joint? i <;> simp
  · simp [h]

end Lists

/-! ## Adding -/

section Adding

variable (w : Wiring)

@[simp] theorem wire?_addJoint (kind : JointKind) (e : WireId) :
    (w.addJoint kind).wire? e = w.wire? e := rfl

theorem joint?_addJoint (kind : JointKind) (j : JointId) :
    (w.addJoint kind).joint? j = if j = w.nextJoint then some ⟨kind, []⟩ else w.joint? j := by
  unfold joint? addJoint
  by_cases h : j = w.nextJoint
  · subst h
    simp [nextJoint]
  · have other : j ≠ w.joints.size := h
    simp [Array.getElem?_push, other, h]

theorem kind?_addJoint (kind : JointKind) (j : JointId) :
    (w.addJoint kind).kind? j = if j = w.nextJoint then some kind else w.kind? j := by
  simp only [kind?, joint?_addJoint]
  split <;> rfl

@[simp] theorem incident_addJoint (kind : JointKind) (j : JointId) :
    (w.addJoint kind).incident j = w.incident j := by
  simp only [incident, joint?_addJoint]
  by_cases h : j = w.nextJoint
  · subst h
    simp [joint?, nextJoint]
  · simp [h]

theorem wire?_addWire (a b : JointId) (kind : WireKind) (e : WireId) :
    (w.addWire a b kind).wire? e =
      if e = w.nextWire then some ⟨⟨a, b⟩, kind⟩ else w.wire? e := by
  simp only [addWire, wire?_listWire]
  unfold wire?
  by_cases h : e = w.nextWire
  · subst h
    simp [nextWire]
  · have other : e ≠ w.wires.size := h
    simp [Array.getElem?_push, other, h]

@[simp] theorem kind?_addWire (a b : JointId) (kind : WireKind) (j : JointId) :
    (w.addWire a b kind).kind? j = w.kind? j := by
  simp only [addWire, kind?_listWire]
  rfl

theorem count_incident_addWire (a b : JointId) (kind : WireKind) {j : JointId} (live : w.IsLive j)
    (e : WireId) :
    ((w.addWire a b kind).incident j).count e =
      (w.incident j).count e + if e = w.nextWire then [a, b].count j else 0 := by
  have pushed : IsLive { w with wires := w.wires.push (some ⟨⟨a, b⟩, kind⟩) } j := live
  have listed : (listWire { w with wires := w.wires.push (some ⟨⟨a, b⟩, kind⟩) } a
      w.nextWire).IsLive j := (isLive_listWire _ _ _ _).mpr pushed
  simp only [addWire]
  rw [count_incident_listWire _ _ _ listed, count_incident_listWire _ _ _ pushed]
  change (w.incident j).count e + _ + _ = _
  by_cases he : e = w.nextWire
  · simp only [he, and_true, List.count_cons, List.count_nil, if_true, beq_iff_eq,
      eq_comm (a := j)]
    omega
  · simp [he]

end Adding

end Wiring

end GraphSplice
