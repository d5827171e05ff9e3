import GraphSplice.Handle
import GraphSplice.Proofs.Ends
import Mathlib.Data.List.Perm.Basic
import Mathlib.Logic.Relation

/-!
Floor plans: how the rooms of a level hang together. A floor plan stays one when a room is hung
off another one, when two rooms are joined by a doorway, and when a room is put into a doorway.
Rooms are numbered; the entrance comes first and the final room second.
-/

namespace GraphSplice.Dungeon

open Relation

def Adjacent (doorways : List (Ends VertexId)) (u v : VertexId) : Prop :=
  ∃ x ∈ doorways, x.Joins u v

/-- The doorways between a number of rooms are such that all rooms can be reached from the
entrance, no doorway leads back to its room, no two join the same rooms, and the final room has
one. -/
structure IsFloorPlan (rooms : Nat) (doorways : List (Ends VertexId)) : Prop where
  outset : 2 ≤ rooms
  inside : ∀ x ∈ doorways, ∀ v, x.Touches v → v.slot < rooms
  loopless : ∀ x ∈ doorways, x.first ≠ x.second
  single : ∀ u v, doorways.countP (·.Joins u v) ≤ 1
  reached : ∀ v : VertexId, v.slot < rooms → ReflTransGen (Adjacent doorways) ⟨0⟩ v
  final : doorways.countP (·.Touches ⟨1⟩) = 1

variable {n : Nat} {doorways doorways' : List (Ends VertexId)} {x : Ends VertexId}
  {u v w w' : VertexId}

theorem Adjacent.symm (h : Adjacent doorways u v) : Adjacent doorways v u := by
  obtain ⟨x, hx, joins⟩ := h
  exact ⟨x, hx, Ends.joins_comm.mp joins⟩

theorem reached_of_subset (sub : doorways ⊆ doorways')
    (h : ReflTransGen (Adjacent doorways) u v) : ReflTransGen (Adjacent doorways') u v :=
  h.lift' id fun _ _ ⟨x, hx, joins⟩ => .single ⟨x, sub hx, joins⟩

/-- A doorway beside which there is none counts once between its rooms. -/
theorem single_cons (single : ∀ u v, doorways.countP (·.Joins u v) ≤ 1)
    (apart : ∀ y ∈ doorways, ¬ y.Joins x.first x.second) (u v : VertexId) :
    (x :: doorways).countP (·.Joins u v) ≤ 1 := by
  rw [List.countP_cons]
  by_cases joins : x.Joins u v
  · have none : doorways.countP (·.Joins u v) = 0 := by
      rw [List.countP_eq_zero]
      intro y hy between
      exact apart y hy ((Ends.joins_congr joins).mpr (of_decide_eq_true between))
    simp [none, joins]
  · simpa [joins] using single u v

namespace IsFloorPlan

/-- The order in which the doorways are listed does not matter. -/
theorem perm (plan : IsFloorPlan n doorways) (h : doorways.Perm doorways') :
    IsFloorPlan n doorways' where
  outset := plan.outset
  inside x hx := plan.inside x (h.mem_iff.mpr hx)
  loopless x hx := plan.loopless x (h.mem_iff.mpr hx)
  single u v := h.countP_eq _ ▸ plan.single u v
  reached v hv := reached_of_subset h.subset (plan.reached v hv)
  final := (h.countP_eq _).symm.trans plan.final

/-- Doorways in the order in which they were added, or the last one first. -/
theorem of_reverse {rest added : List (Ends VertexId)}
    (plan : IsFloorPlan n (added.reverse ++ rest)) : IsFloorPlan n (rest ++ added) :=
  plan.perm (((List.reverse_perm added).append_right rest).trans List.perm_append_comm)

theorem not_touches_next (plan : IsFloorPlan n doorways) (hx : x ∈ doorways) :
    ¬ x.Touches ⟨n⟩ :=
  fun touches => Nat.lt_irrefl n (plan.inside x hx _ touches)

theorem next_ne_final (plan : IsFloorPlan n doorways) : (⟨n⟩ : VertexId) ≠ ⟨1⟩ := by
  intro same
  have number : n = 1 := congrArg Handle.slot same
  have outset := plan.outset
  omega

theorem ne_next (hu : u.slot < n) : u ≠ ⟨n⟩ := by
  rintro rfl
  exact Nat.lt_irrefl n hu

theorem inside_next (hu : u.slot < n) : ∀ w, (Ends.mk u ⟨n⟩).Touches w → w.slot < n + 1 := by
  rintro w (same | same)
  · exact same ▸ Nat.lt_succ_of_lt hu
  · exact same ▸ Nat.lt_succ_self n

theorem not_joins_next (hu : u.slot < n) (distinct : u ≠ v) : ¬ (Ends.mk u ⟨n⟩).Joins v ⟨n⟩ := by
  rintro (same | same)
  · exact distinct (congrArg Ends.first same)
  · exact ne_next hu (congrArg Ends.first same)

/-- A doorway more between two rooms that none joins, neither of them the final room. -/
theorem join (plan : IsFloorPlan n doorways) (hu : u.slot < n) (hv : v.slot < n)
    (distinct : u ≠ v) (apart : ∀ x ∈ doorways, ¬ x.Joins u v) (first : u ≠ ⟨1⟩)
    (second : v ≠ ⟨1⟩) : IsFloorPlan n (⟨u, v⟩ :: doorways) where
  outset := plan.outset
  inside := by
    rw [List.forall_mem_cons]
    refine ⟨?_, plan.inside⟩
    rintro w (same | same)
    · exact same ▸ hu
    · exact same ▸ hv
  loopless := List.forall_mem_cons.mpr ⟨distinct, plan.loopless⟩
  single := single_cons plan.single apart
  reached w hw := reached_of_subset (List.subset_cons_self _ _) (plan.reached w hw)
  final := by
    rw [List.countP_cons, plan.final]
    simp [Ends.Touches, first, second]

/-- A new room with a doorway to a room that is not the final one. -/
theorem hang (plan : IsFloorPlan n doorways) (hu : u.slot < n) (spared : u ≠ ⟨1⟩) :
    IsFloorPlan (n + 1) (⟨u, ⟨n⟩⟩ :: doorways) where
  outset := Nat.le_succ_of_le plan.outset
  inside := by
    rw [List.forall_mem_cons]
    exact ⟨inside_next hu, fun x hx v touches => Nat.lt_succ_of_lt (plan.inside x hx v touches)⟩
  loopless := List.forall_mem_cons.mpr ⟨ne_next hu, plan.loopless⟩
  single := single_cons plan.single fun y hy joins => plan.not_touches_next hy joins.touches.2
  reached w hw := by
    have old {w : VertexId} (below : w.slot < n) :=
      reached_of_subset (List.subset_cons_self ⟨u, ⟨n⟩⟩ _) (plan.reached w below)
    rcases Nat.lt_succ_iff_lt_or_eq.mp hw with below | last
    · exact old below
    · obtain rfl : w = ⟨n⟩ := Handle.ext_slot last
      exact (old hu).tail ⟨_, List.mem_cons_self, Ends.joins_self _⟩
  final := by
    rw [List.countP_cons, plan.final]
    simp [Ends.Touches, spared, plan.next_ne_final]

/-- A new room with doorways to two rooms, neither of them the final one. -/
theorem detour (plan : IsFloorPlan n doorways) (hu : u.slot < n) (hv : v.slot < n)
    (distinct : u ≠ v) (first : u ≠ ⟨1⟩) (second : v ≠ ⟨1⟩) :
    IsFloorPlan (n + 1) (⟨v, ⟨n⟩⟩ :: ⟨u, ⟨n⟩⟩ :: doorways) := by
  refine (plan.hang hu first).join (Nat.lt_succ_of_lt hv) (Nat.lt_succ_self n) (ne_next hv) ?_
    second plan.next_ne_final
  rw [List.forall_mem_cons]
  exact ⟨not_joins_next hu distinct, fun x hx joins => plan.not_touches_next hx joins.touches.2⟩

/-- Where a way passes a doorway it can pass a room put into it. -/
theorem reached_divide (joins : x.Joins u v) (h : ReflTransGen (Adjacent (x :: doorways)) w w') :
    ReflTransGen (Adjacent (⟨v, ⟨n⟩⟩ :: ⟨u, ⟨n⟩⟩ :: doorways)) w w' := by
  refine h.lift' id ?_
  rintro a b ⟨y, hy, between⟩
  rcases List.mem_cons.mp hy with rfl | hy
  · have left : Adjacent (⟨v, ⟨n⟩⟩ :: ⟨u, ⟨n⟩⟩ :: doorways) u ⟨n⟩ :=
      ⟨⟨u, ⟨n⟩⟩, by simp, Ends.joins_self _⟩
    have right : Adjacent (⟨v, ⟨n⟩⟩ :: ⟨u, ⟨n⟩⟩ :: doorways) v ⟨n⟩ :=
      ⟨⟨v, ⟨n⟩⟩, by simp, Ends.joins_self _⟩
    rcases joins.unique between with ⟨rfl, rfl⟩ | ⟨rfl, rfl⟩
    · exact .tail (.single left) right.symm
    · exact .tail (.single right) left.symm
  · exact .single ⟨y, by simp [hy], between⟩

/-- A doorway gives way to a new room with doorways to both sides. -/
theorem divide (plan : IsFloorPlan n (x :: doorways)) (joins : x.Joins u v) :
    IsFloorPlan (n + 1) (⟨v, ⟨n⟩⟩ :: ⟨u, ⟨n⟩⟩ :: doorways) := by
  have hu : u.slot < n := plan.inside x List.mem_cons_self u joins.touches.1
  have hv : v.slot < n := plan.inside x List.mem_cons_self v joins.touches.2
  have distinct : u ≠ v := by
    rintro rfl
    apply plan.loopless x List.mem_cons_self
    rcases joins with rfl | rfl <;> rfl
  have away : ∀ y ∈ doorways, ¬ y.Touches ⟨n⟩ := fun y hy =>
    plan.not_touches_next (List.mem_cons_of_mem x hy)
  constructor
  case outset =>
    exact Nat.le_succ_of_le plan.outset
  case inside =>
    simp only [List.forall_mem_cons]
    refine ⟨inside_next hv, inside_next hu, fun y hy w touches => ?_⟩
    exact Nat.lt_succ_of_lt (plan.inside y (List.mem_cons_of_mem x hy) w touches)
  case loopless =>
    simp only [List.forall_mem_cons]
    exact ⟨ne_next hv, ne_next hu, fun y hy => plan.loopless y (List.mem_cons_of_mem x hy)⟩
  case single =>
    refine single_cons (single_cons ?_ fun y hy joins => away y hy joins.touches.2) ?_
    · exact fun a b => Nat.le_trans (List.sublist_cons_self x doorways).countP_le (plan.single a b)
    · rw [List.forall_mem_cons]
      exact ⟨not_joins_next hu distinct, fun y hy joins => away y hy joins.touches.2⟩
  case reached =>
    intro w hw
    rcases Nat.lt_succ_iff_lt_or_eq.mp hw with below | last
    · exact reached_divide joins (plan.reached w below)
    · obtain rfl : w = ⟨n⟩ := Handle.ext_slot last
      exact (reached_divide joins (plan.reached u hu)).tail
        ⟨⟨u, ⟨n⟩⟩, by simp, Ends.joins_self _⟩
  case final =>
    -- One of the new doorways is at the final room if the old one was.
    have before := plan.final
    have either : x.Touches ⟨1⟩ ↔ u = ⟨1⟩ ∨ v = ⟨1⟩ := by
      rcases joins with rfl | rfl
      · rfl
      · exact or_comm
    have next (w : VertexId) : (Ends.mk w ⟨n⟩).Touches ⟨1⟩ ↔ w = ⟨1⟩ :=
      or_iff_left plan.next_ne_final
    rw [List.countP_cons] at before
    rw [List.countP_cons, List.countP_cons]
    simp only [decide_eq_true_eq, either, next] at before ⊢
    by_cases first : u = ⟨1⟩
    · have second : v ≠ ⟨1⟩ := fun same => distinct (first.trans same.symm)
      simpa [first, second] using before
    · simpa [first] using before

end IsFloorPlan

end GraphSplice.Dungeon
