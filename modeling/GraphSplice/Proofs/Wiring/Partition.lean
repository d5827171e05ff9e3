import GraphSplice.Proofs.Wiring.Components

/-!
The list of components is the partition of the linked sockets. The invariant of the outer loop
says that the sockets with a side are those of the components listed so far, and that no link
leads out of them.
-/

namespace GraphSplice.Wiring

variable {w : Wiring}

/-- The component holds what a walk from `start`, its lowest socket, reaches; the side of a socket
is the parity of a walk to it. -/
structure IsComponent (w : Wiring) (start : Nat) (c : Component) : Prop where
  begins : (start, Side.first) ∈ c.sockets
  lowest : ∀ x ∈ c.sockets, start ≤ x.1
  nodup : (c.sockets.map (·.1)).Nodup
  linked : ∀ x ∈ c.sockets, w.links x.1 ≠ []
  walk : ∀ x ∈ c.sockets, ∃ n, Walk w.LinkedTo n start x.1 ∧ (Even n ↔ x.2 = .first)
  closed : ∀ x ∈ c.sockets, ∀ k, w.LinkedTo x.1 k →
    ∃ side, (k, side) ∈ c.sockets ∧ (side = x.2 → c.odd = true)
  odd : c.odd = true → ∃ x ∈ c.sockets, ∃ y ∈ c.sockets, x.2 = y.2 ∧ w.LinkedTo x.1 y.1

theorem LinkedTo.links_ne_nil (sound : w.Sound) {a b : JointId} (h : w.LinkedTo a b) :
    w.links b ≠ [] := (links_ne_nil_iff sound).mpr ⟨a, h.symm⟩

theorem vacant_iff {sides : Array (Option Side)} {j : Nat} :
    sides[j]? = some none ↔ j < sides.size ∧ ∀ side, sides[j]? ≠ some (some side) := by
  by_cases inside : j < sides.size
  · rw [Array.getElem?_eq_getElem inside]
    cases sides[j] with
    | none => simp [inside]
    | some side => simp
  · simp [inside]

namespace Partition

/-- The partition accounts for the linked sockets among `done`. -/
structure Valid (w : Wiring) (done : List JointId) (p : Partition) : Prop where
  size : p.sides.size = w.joints.size
  closed : ∀ j k, w.LinkedTo j k → p.sides[j]? = some none → p.sides[k]? = some none
  sides : ∀ j side, p.sides[j]? = some (some side) ↔ ∃ c ∈ p.components, (j, side) ∈ c.sockets
  each : ∀ c ∈ p.components, ∃ start ∈ done, w.IsComponent start c
  ascending : p.components.Pairwise fun c d =>
    ∃ a b, w.IsComponent a c ∧ w.IsComponent b d ∧ a < b
  disjoint : p.components.Pairwise fun c d =>
    ∀ j side other, (j, side) ∈ c.sockets → (j, other) ∉ d.sockets
  covered : ∀ j ∈ done, w.links j ≠ [] → ∃ c ∈ p.components, ∃ side, (j, side) ∈ c.sockets

theorem valid_initial (sound : w.Sound) :
    Valid w [] ⟨Array.replicate w.joints.size none, []⟩ where
  size := by simp
  closed j k linked h := by
    have inside := lt_size_of_isLive (LinkedTo.isSocket sound linked.symm).isLive
    simp [inside]
  sides j side := by simp [Array.getElem?_replicate]
  each c h := by cases h
  ascending := .nil
  disjoint := .nil
  covered j h := by cases h

variable {done rest : List JointId} {start : JointId} {p : Partition}

theorem Valid.skip (valid : p.Valid w done) (inside : start < w.joints.size)
    (h : ¬ (p.sides[start]? = some none ∧ w.links start ≠ [])) : p.Valid w (done ++ [start]) := by
  refine ⟨valid.size, valid.closed, valid.sides, ?_, valid.ascending, valid.disjoint, ?_⟩
  · intro c hc
    obtain ⟨a, ha, component⟩ := valid.each c hc
    exact ⟨a, List.mem_append_left _ ha, component⟩
  · intro j hj linked
    rcases List.mem_append.mp hj with old | new
    · exact valid.covered j old linked
    · obtain rfl := List.mem_singleton.mp new
      have reached : ¬ p.sides[j]? = some none := fun free => h ⟨free, linked⟩
      rw [vacant_iff, valid.size] at reached
      simp only [inside, true_and, not_forall, not_not] at reached
      obtain ⟨side, found⟩ := reached
      obtain ⟨c, hc, mem⟩ := (valid.sides j side).mp found
      exact ⟨c, hc, side, mem⟩

/-- The walk that starts a new component. -/
def walkFrom (w : Wiring) (p : Partition) (start : JointId) : Sweep :=
  w.sweep ⟨p.sides.setIfInBounds start (some .first), [(start, .first)], [], false⟩

theorem walkFrom_spec (sound : w.Sound) (valid : p.Valid w done)
    (free : p.sides[start]? = some none) :
    (walkFrom w p start).Valid w p.sides start ∧ (walkFrom w p start).Explored w ∧
      (walkFrom w p start).reached = (walkFrom w p start).visited ∧
      (start, Side.first) ∈ (walkFrom w p start).visited := by
  have inside : start < p.sides.size := (Array.getElem?_eq_some_iff.mp free).1
  have begun : Sweep.Valid w p.sides start
      ⟨p.sides.setIfInBounds start (some .first), [(start, .first)], [], false⟩ := by
    refine ⟨by simp, ?_, ?_, by simp [Sweep.reached], ?_, ?_⟩
    · intro j side
      simp only [Sweep.reached, List.nil_append, List.mem_singleton, Prod.mk.injEq,
        Array.getElem?_setIfInBounds]
      by_cases hj : start = j
      · subst hj
        rw [free]
        simp only [if_true, inside, Option.some.injEq, true_and, reduceCtorEq, false_or]
        exact eq_comm
      · simp [hj, Ne.symm hj]
    · intro x hx
      simp only [Sweep.reached, List.nil_append, List.mem_singleton] at hx
      subst hx
      exact free
    · intro x hx
      simp only [Sweep.reached, List.nil_append, List.mem_singleton] at hx
      subst hx
      exact ⟨0, rfl, by simp⟩
    · intro h
      cases h
  obtain ⟨valid', explored, extends', empty⟩ := sweep_spec sound valid.closed _ begun
    (fun x hx => by cases hx)
  have all : (walkFrom w p start).reached = (walkFrom w p start).visited := by
    have none : (walkFrom w p start).queue = [] := empty
    simp [Sweep.reached, none]
  refine ⟨valid', explored, all, ?_⟩
  rw [← all]
  exact extends'.reached (by simp [Sweep.reached])

theorem Valid.isComponent (sound : w.Sound) (valid : p.Valid w done)
    (listed : w.liveSockets = done ++ start :: rest) (free : p.sides[start]? = some none)
    (linked : w.links start ≠ []) :
    w.IsComponent start ⟨(walkFrom w p start).visited, (walkFrom w p start).odd⟩ := by
  obtain ⟨valid', explored, all, begins⟩ := walkFrom_spec sound valid free
  have nodup := valid'.nodup
  rw [all] at nodup
  have partner : ∀ x ∈ (walkFrom w p start).visited, w.links x.1 ≠ [] := by
    intro x hx
    obtain ⟨n, walk, -⟩ := valid'.walk x (by rw [all]; exact hx)
    cases n with
    | zero =>
      obtain rfl := Walk.zero_iff.mp walk
      exact linked
    | succ n =>
      obtain ⟨before, -, last⟩ := walk
      exact last.links_ne_nil sound
  refine ⟨begins, ?_, nodup, partner, ?_, ?_, ?_⟩
  · intro x hx
    have fresh := valid'.fresh x (by rw [all]; exact hx)
    have socket : x.1 ∈ w.liveSockets := by
      obtain ⟨k, joined⟩ := (links_ne_nil_iff sound).mp (partner x hx)
      exact mem_liveSockets_iff.mpr (joined.isSocket sound)
    have ascending := w.liveSockets_ascending
    rw [listed] at socket ascending
    rcases List.mem_append.mp socket with old | new
    · obtain ⟨c, hc, side, mem⟩ := valid.covered x.1 old (partner x hx)
      rw [(valid.sides x.1 side).mpr ⟨c, hc, mem⟩] at fresh
      cases fresh
    · have above := (List.pairwise_cons.mp (List.pairwise_append.mp ascending).2.1).1
      rcases List.mem_cons.mp new with same | later
      · exact Nat.le_of_eq same.symm
      · exact Nat.le_of_lt (above x.1 later)
  · intro x hx
    exact valid'.walk x (by rw [all]; exact hx)
  · intro x hx k joined
    obtain ⟨side, mem, noted⟩ := explored x hx k joined
    rw [all] at mem
    exact ⟨side, mem, noted⟩
  · intro h
    obtain ⟨x, hx, y, hy, same, joined⟩ := valid'.odd h
    rw [all] at hx hy
    exact ⟨x, hx, y, hy, same, joined⟩

theorem Valid.add (sound : w.Sound) (valid : p.Valid w done)
    (listed : w.liveSockets = done ++ start :: rest) (free : p.sides[start]? = some none)
    (linked : w.links start ≠ []) :
    Valid w (done ++ [start]) ⟨(walkFrom w p start).sides,
      p.components ++ [⟨(walkFrom w p start).visited, (walkFrom w p start).odd⟩]⟩ := by
  obtain ⟨valid', explored, all, begins⟩ := walkFrom_spec sound valid free
  have component := valid.isComponent sound listed free linked
  refine ⟨valid'.size.trans valid.size, ?_, ?_, ?_, ?_, ?_, ?_⟩
  · intro j k joined hj
    simp only [vacant_iff, valid'.size] at hj ⊢
    obtain ⟨inside, unsided⟩ := hj
    have socket := lt_size_of_isLive (LinkedTo.isSocket sound joined.symm).isLive
    rw [valid.size]
    refine ⟨socket, ?_⟩
    intro side found
    rcases (valid'.sides k side).mp found with old | new
    · have before : p.sides[j]? = some none := by
        rw [vacant_iff]
        exact ⟨inside, fun other h => unsided other ((valid'.sides j other).mpr (.inl h))⟩
      rw [valid.closed j k joined before] at old
      cases old
    · rw [all] at new
      obtain ⟨other, mem, -⟩ := explored _ new j joined.symm
      exact unsided other ((valid'.sides j other).mpr (.inr mem))
  · intro j side
    rw [valid'.sides, valid.sides, all]
    simp only [List.mem_append, List.mem_singleton, or_and_right, exists_or, exists_eq_left]
  · intro c hc
    rcases List.mem_append.mp hc with old | new
    · obtain ⟨a, ha, earlier⟩ := valid.each c old
      exact ⟨a, List.mem_append_left _ ha, earlier⟩
    · obtain rfl := List.mem_singleton.mp new
      exact ⟨start, by simp, component⟩
  · rw [List.pairwise_append]
    refine ⟨valid.ascending, List.pairwise_singleton _ _, ?_⟩
    intro c hc d hd
    obtain rfl := List.mem_singleton.mp hd
    obtain ⟨a, ha, earlier⟩ := valid.each c hc
    have ascending := w.liveSockets_ascending
    rw [listed] at ascending
    exact ⟨a, start, earlier, component,
      (List.pairwise_append.mp ascending).2.2 a ha start List.mem_cons_self⟩
  · rw [List.pairwise_append]
    refine ⟨valid.disjoint, List.pairwise_singleton _ _, ?_⟩
    intro c hc d hd j side other hj hj'
    obtain rfl := List.mem_singleton.mp hd
    have fresh := valid'.fresh (j, other) (by rw [all]; exact hj')
    rw [(valid.sides j side).mpr ⟨c, hc, hj⟩] at fresh
    cases fresh
  · intro j hj partner
    rcases List.mem_append.mp hj with old | new
    · obtain ⟨c, hc, side, mem⟩ := valid.covered j old partner
      exact ⟨c, List.mem_append_left _ hc, side, mem⟩
    · obtain rfl := List.mem_singleton.mp new
      exact ⟨_, List.mem_append_right _ List.mem_cons_self, .first, begins⟩

theorem Valid.grow (sound : w.Sound) (valid : p.Valid w done)
    (listed : w.liveSockets = done ++ start :: rest) :
    (Partition.grow w p start).Valid w (done ++ [start]) := by
  unfold Partition.grow
  split
  · next h => exact valid.add sound listed h.1 h.2
  · next h =>
    have live : start ∈ w.liveSockets := by simp [listed]
    exact valid.skip (lt_size_of_isLive (mem_liveSockets_iff.mp live).isLive) h

theorem valid_growAll (sound : w.Sound) (todo : List JointId) :
    ∀ (done : List JointId) (p : Partition), p.Valid w done → w.liveSockets = done ++ todo →
      (todo.foldl (Partition.grow w) p).Valid w w.liveSockets := by
  induction todo with
  | nil =>
    intro done p valid listed
    rw [listed, List.append_nil]
    exact valid
  | cons start rest ih =>
    intro done p valid listed
    exact ih (done ++ [start]) _ (valid.grow sound listed) (by simp [listed])

end Partition

theorem components_valid (sound : w.Sound) :
    ∃ p : Partition, p.Valid w w.liveSockets ∧ p.components = w.components :=
  ⟨_, Partition.valid_growAll sound w.liveSockets [] _ (Partition.valid_initial sound) rfl, rfl⟩

end GraphSplice.Wiring
