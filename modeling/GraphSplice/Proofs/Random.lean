import GraphSplice.Random.Words
import Mathlib.Data.List.Perm.Basic

/-!
Draws from random words obey the laws of a source: whatever the words, a number is below its range, a
choice is one of the items, and a shuffle rearranges them.
-/

namespace GraphSplice.RandomWords

variable {σ α : Type}

/-- An accepted word ends a draw, and after a refused one it starts over. -/
theorem drawUpTo_eq {width : Nat} (top : Nat) (next : σ → Fin (twoTo width) × σ) (s : σ) :
    drawUpTo top next s =
      match attempt top next s with
      | .inl s => drawUpTo top next s
      | .inr drawn => drawn := by
  have : Nonempty (Fin (top + 1) × σ) := ⟨⟨0, top.succ_pos⟩, s⟩
  unfold drawUpTo
  rw [repeatM_eq_of_monadTail]
  cases h : attempt top next s <;> simp [repeatM.body, h]

variable [RandomWords σ]

theorem perm_shuffleFrom (count : Nat) (items : Array α) (s : σ) :
    (shuffleFrom items count s).1.toList.Perm items.toList := by
  induction count generalizing items s with
  | zero => exact .refl _
  | succ i ih =>
    unfold shuffleFrom
    refine (ih _ _).trans ?_
    unfold Array.swapIfInBounds
    split
    · split
      · exact Array.perm_iff_toList_perm.mp (Array.swap_perm _ _)
      · exact .refl _
    · exact .refl _

instance : LawfulRandomSource σ where
  below_lt {range} positive s := by
    cases range with
    | zero => cases positive
    | succ top => exact (upTo64 top s).1.isLt
  mem_of_choose {_ items s x} h := by
    cases items with
    | nil => cases h
    | cons first rest =>
      cases h
      exact List.get_mem _ _
  eq_nil_of_choose {_ items s} h := by
    cases items with
    | nil => rfl
    | cons first rest => cases h
  perm_shuffle _ _ := perm_shuffleFrom _ _ _

end GraphSplice.RandomWords
