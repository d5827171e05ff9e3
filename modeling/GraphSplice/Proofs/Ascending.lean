import GraphSplice.Ascending
import GraphSplice.Proofs.Lists
import Mathlib.Order.Defs.Unbundled
import Mathlib.Order.RelClasses

/-!
The members of ascending lists, the entries of ascending maps, and the lexicographic order of number
sequences.
-/

namespace GraphSplice

instance {kind : Kind} : IsStrictTotalOrder (Handle kind) (· < ·) where
  trichotomous a b below above := Handle.ext_slot (by simp only [Handle.lt_iff] at *; omega)
  irrefl a := Nat.lt_irrefl a.slot
  trans a b c := Nat.lt_trans

namespace Ascending

universe u
variable {α : Type u} [LT α] [DecidableLT α] [IsStrictTotalOrder α (· < ·)]

omit [DecidableLT α] in
theorem eq_of_not_lt {a b : α} (below : ¬ a < b) (above : ¬ b < a) : a = b :=
  Std.Trichotomous.trichotomous (r := (· < ·)) a b below above

theorem mem_insert {x y : α} {set : List α} : y ∈ insert x set ↔ y = x ∨ y ∈ set := by
  induction set with
  | nil => simp [insert]
  | cons z rest ih =>
    unfold insert
    split
    · simp
    · next below =>
      split
      · rw [List.mem_cons, ih, List.mem_cons]
        exact or_left_comm
      · next above =>
        obtain rfl := eq_of_not_lt below above
        simp

theorem insert_pairwise {x : α} {set : List α} (h : set.Pairwise (· < ·)) :
    (insert x set).Pairwise (· < ·) := by
  induction set with
  | nil => exact List.pairwise_singleton _ _
  | cons z rest ih =>
    obtain ⟨least, ascending⟩ := List.pairwise_cons.mp h
    unfold insert
    split
    · next below =>
      refine List.pairwise_cons.mpr ⟨?_, h⟩
      intro y hy
      rcases List.mem_cons.mp hy with rfl | hy
      · exact below
      · exact IsTrans.trans _ _ _ below (least y hy)
    · split
      · next above =>
        refine List.pairwise_cons.mpr ⟨?_, ih ascending⟩
        intro y hy
        rcases mem_insert.mp hy with rfl | hy
        · exact above
        · exact least y hy
      · exact h

theorem mem_insertAll {set xs : List α} {y : α} : y ∈ insertAll set xs ↔ y ∈ set ∨ y ∈ xs := by
  unfold insertAll
  induction xs generalizing set with
  | nil => simp
  | cons x rest ih =>
    rw [List.foldl_cons, ih, mem_insert, List.mem_cons]
    constructor
    · rintro ((h | h) | h)
      · exact .inr (.inl h)
      · exact .inl h
      · exact .inr (.inr h)
    · rintro (h | h | h)
      · exact .inl (.inr h)
      · exact .inl (.inl h)
      · exact .inr h

theorem insertAll_pairwise {set xs : List α} (h : set.Pairwise (· < ·)) :
    (insertAll set xs).Pairwise (· < ·) := by
  unfold insertAll
  induction xs generalizing set with
  | nil => exact h
  | cons x rest ih => exact ih (insert_pairwise h)

theorem mem_ofList {xs : List α} {y : α} : y ∈ ofList xs ↔ y ∈ xs := by
  have inserted := @mem_insertAll _ _ _ _ [] xs y
  simpa [insertAll, ofList] using inserted

theorem ofList_pairwise (xs : List α) : (ofList xs).Pairwise (· < ·) :=
  @insertAll_pairwise _ _ _ _ [] xs .nil

section
variable {α β : Type} [LT α] [DecidableLT α] [DecidableEq α]

theorem keys_insertEntry [IsStrictTotalOrder α (· < ·)] (key : α) (value : β)
    (entries : List (α × β)) :
    (insertEntry key value entries).map (·.1) = insert key (entries.map (·.1)) := by
  induction entries with
  | nil => rfl
  | cons entry rest ih =>
    obtain ⟨other, old⟩ := entry
    simp only [insertEntry, List.map_cons, insert]
    split
    · next same =>
      have notBelow : ¬ other < other := irrefl other
      simp [same, notBelow]
    · next different =>
      split
      · rfl
      · next notBelow =>
        have above : other < key := by
          by_contra notAbove
          exact different (eq_of_not_lt notBelow notAbove)
        rw [if_pos above, List.map_cons, ih]

theorem lookup_insertEntry (key other : α) (value : β) (entries : List (α × β)) :
    (insertEntry key value entries).lookup other =
      if other = key then some value else entries.lookup other := by
  induction entries with
  | nil => exact lookup_cons_eq other key value []
  | cons entry rest ih =>
    obtain ⟨k, old⟩ := entry
    unfold insertEntry
    split
    · next same =>
      rw [lookup_cons_eq, lookup_cons_eq, same]
      split <;> rfl
    · next different =>
      split
      · exact lookup_cons_eq other key value _
      · rw [lookup_cons_eq, lookup_cons_eq, ih]
        by_cases here : other = k
        · have elsewhere : other ≠ key := fun same => different (same.symm.trans here)
          rw [if_pos here, if_neg elsewhere, if_pos here]
        · rw [if_neg here, if_neg here]

end

/-- The walk over two ascending lists misses no common member. -/
theorem meets_iff {xs ys : List α} (hx : xs.Pairwise (· < ·)) (hy : ys.Pairwise (· < ·)) :
    meets xs ys = true ↔ ∃ x ∈ xs, x ∈ ys := by
  fun_induction meets xs ys with
  | case1 ys => simp
  | case2 x xs => simp
  | case3 x xs y ys below ih =>
    obtain ⟨-, ascending⟩ := List.pairwise_cons.mp hx
    obtain ⟨least, -⟩ := List.pairwise_cons.mp hy
    have absent : x ∉ y :: ys := by
      intro mem
      rcases List.mem_cons.mp mem with rfl | mem
      · exact irrefl x below
      · exact irrefl x (IsTrans.trans _ _ _ below (least x mem))
    rw [ih ascending hy]
    constructor
    · rintro ⟨z, hz, hz'⟩
      exact ⟨z, List.mem_cons_of_mem _ hz, hz'⟩
    · rintro ⟨z, hz, hz'⟩
      rcases List.mem_cons.mp hz with rfl | hz
      · exact absurd hz' absent
      · exact ⟨z, hz, hz'⟩
  | case4 x xs y ys _ above ih =>
    obtain ⟨least, -⟩ := List.pairwise_cons.mp hx
    obtain ⟨-, ascending⟩ := List.pairwise_cons.mp hy
    have absent : y ∉ x :: xs := by
      intro mem
      rcases List.mem_cons.mp mem with rfl | mem
      · exact irrefl y above
      · exact irrefl y (IsTrans.trans _ _ _ above (least y mem))
    rw [ih hx ascending]
    constructor
    · rintro ⟨z, hz, hz'⟩
      exact ⟨z, hz, List.mem_cons_of_mem _ hz'⟩
    · rintro ⟨z, hz, hz'⟩
      rcases List.mem_cons.mp hz' with rfl | hz'
      · exact absurd hz absent
      · exact ⟨z, hz, hz'⟩
  | case5 x xs y ys below above =>
    obtain rfl := eq_of_not_lt below above
    simp

theorem meets_eq_false_iff {xs ys : List α} (hx : xs.Pairwise (· < ·))
    (hy : ys.Pairwise (· < ·)) : meets xs ys = false ↔ ∀ x ∈ xs, x ∉ ys := by
  rw [← Bool.not_eq_true, meets_iff hx hy]
  exact ⟨fun none x hx' hy' => none ⟨x, hx', hy'⟩, fun apart ⟨x, hx', hy'⟩ => apart x hx' hy'⟩

omit [LT α] [DecidableLT α] [IsStrictTotalOrder α (· < ·)] in
theorem precedes_iff {xs ys : List Nat} : precedes xs ys = true ↔ xs < ys := by
  fun_induction precedes xs ys with
  | case1 => simp
  | case2 y ys => simp
  | case3 x xs => simp
  | case4 x xs y ys below => simp [List.cons_lt_cons_iff, below]
  | case5 x xs y ys below above =>
    simp only [List.cons_lt_cons_iff]
    constructor
    · exact nofun
    · rintro (less | ⟨same, -⟩)
      · exact absurd less below
      · exact absurd same (Nat.ne_of_gt above)
  | case6 x xs y ys below above ih =>
    obtain rfl : x = y := by omega
    simp [ih]

end Ascending

end GraphSplice
