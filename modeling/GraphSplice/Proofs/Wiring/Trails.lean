import GraphSplice.Proofs.Wiring.Components

/-!
Forests of sockets. A trail follows links and uses none of them twice; the sockets form a forest
when no trail leads back to where it began. That is so wherever every link has a tip, a socket
without any other link.
-/

namespace GraphSplice.Wiring

/-- The links in turn lead from the first socket to the last one, none of them twice. -/
inductive Trail (w : Wiring) : JointId → List WireId → JointId → Prop
  | nil (j : JointId) : Trail w j [] j
  | cons {i j k : JointId} {e : WireId} {rest : List WireId} {ends : Ends JointId}
      {origin : LinkOrigin} : w.wire? e = some ⟨ends, .link origin⟩ → ends.Joins i j → e ∉ rest →
      Trail w j rest k → Trail w i (e :: rest) k

/-- No trail closes a cycle, be it a loop or two parallel links. -/
def IsForest (w : Wiring) : Prop := ∀ j trail, w.Trail j trail j → trail = []

/-- The socket is at one end of the link only, and no other link is at it. -/
structure IsTip (w : Wiring) (e : WireId) (ends : Ends JointId) (j : JointId) : Prop where
  touches : ends.Touches j
  apart : ¬ ends.Joins j j
  alone : ∀ f ends' origin, w.wire? f = some ⟨ends', .link origin⟩ → ends'.Touches j → f = e

variable {w : Wiring} {i j k : JointId} {e : WireId} {trail : List WireId}

/-- The last link of a trail is at its last socket. -/
theorem Trail.exists_last (h : w.Trail i trail k) (nonempty : trail ≠ []) :
    ∃ e ∈ trail, ∃ ends origin, w.wire? e = some ⟨ends, .link origin⟩ ∧ ends.Touches k := by
  induction h with
  | nil j => exact absurd rfl nonempty
  | @cons i j k e rest ends origin found joins _ later ih =>
    cases rest with
    | nil =>
      cases later
      exact ⟨e, List.mem_cons_self, ends, origin, found, joins.touches.2⟩
    | cons f rest =>
      obtain ⟨g, hg, link⟩ := ih (List.cons_ne_nil f rest)
      exact ⟨g, List.mem_cons_of_mem e hg, link⟩

/-- The first link of a trail is at its first socket. -/
theorem Trail.exists_first (h : w.Trail i trail k) (nonempty : trail ≠ []) :
    ∃ e ∈ trail, ∃ ends origin, w.wire? e = some ⟨ends, .link origin⟩ ∧ ends.Touches i := by
  cases h with
  | nil => exact absurd rfl nonempty
  | cons found joins _ _ =>
    exact ⟨_, List.mem_cons_self, _, _, found, joins.touches.1⟩

/-- A trail that leaves a tip by its link does not come back, and neither does one that enters. -/
theorem isForest_of_tips (tips : ∀ e ends origin, w.wire? e = some ⟨ends, .link origin⟩ →
    ∃ j, w.IsTip e ends j) : w.IsForest := by
  intro i trail closed
  cases closed with
  | nil => rfl
  | @cons _ j _ e rest ends origin found joins fresh later =>
    exfalso
    obtain ⟨tip, isTip⟩ := tips e ends origin found
    have moved : i ≠ j := by
      rintro rfl
      rcases joins.eq_of_touches isTip.touches with rfl | rfl <;> exact isTip.apart joins
    have nonempty : rest ≠ [] := by
      rintro rfl
      cases later
      exact moved rfl
    -- the tip is met again by a link of the rest, which is not the first link
    have met : ∃ f ∈ rest, ∃ ends' origin', w.wire? f = some ⟨ends', .link origin'⟩ ∧
        ends'.Touches tip := by
      rcases joins.eq_of_touches isTip.touches with rfl | rfl
      · exact later.exists_last nonempty
      · exact later.exists_first nonempty
    obtain ⟨f, hf, ends', origin', found', touches⟩ := met
    rw [isTip.alone f ends' origin' found' touches] at hf
    exact fresh hf

end GraphSplice.Wiring
