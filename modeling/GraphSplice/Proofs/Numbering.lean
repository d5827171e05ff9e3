import GraphSplice.Proofs.Lists
import Mathlib.Data.List.Perm.Basic
import Mathlib.Logic.Equiv.Basic

/-!
Permutations that lists give rise to: of the places of a list that is reordered, and of the members
that two lists share.
-/

namespace GraphSplice

/-! ## Places -/

/-- The permutation that leaves zero and shifts the other one up. -/
def shiftUp (σ : Equiv.Perm Nat) : Equiv.Perm Nat where
  toFun
    | 0 => 0
    | n + 1 => σ n + 1
  invFun
    | 0 => 0
    | n + 1 => σ.symm n + 1
  left_inv n := by cases n <;> simp
  right_inv n := by cases n <;> simp

/-- The numbers tell where each element of the first list went. -/
def Numbers {α : Type} (σ : Equiv.Perm Nat) (xs ys : List α) : Prop := ∀ a : Nat, ys[σ a]? = xs[a]?

theorem exists_numbers {α : Type} {xs ys : List α} (perm : xs.Perm ys) : ∃ σ, Numbers σ xs ys := by
  induction perm with
  | nil => exact ⟨Equiv.refl Nat, fun a => rfl⟩
  | cons x _ ih =>
    obtain ⟨σ, numbers⟩ := ih
    refine ⟨shiftUp σ, ?_⟩
    intro a
    cases a with
    | zero => rfl
    | succ a => exact numbers a
  | swap x y rest =>
    refine ⟨Equiv.swap 0 1, ?_⟩
    intro a
    cases a with
    | zero => rfl
    | succ a =>
      cases a with
      | zero => rfl
      | succ a =>
        have fixed : Equiv.swap 0 1 (a + 1 + 1) = a + 1 + 1 :=
          Equiv.swap_apply_of_ne_of_ne (by omega) (by omega)
        rw [fixed]
        rfl
  | trans _ _ ih ih' =>
    obtain ⟨σ, numbers⟩ := ih
    obtain ⟨τ, numbers'⟩ := ih'
    exact ⟨σ.trans τ, fun a => (numbers' (σ a)).trans (numbers a)⟩

namespace Numbers

variable {α : Type} {σ : Equiv.Perm Nat} {xs ys : List α}

theorem symm (numbers : Numbers σ xs ys) : Numbers σ.symm ys xs := by
  intro a
  have there := numbers (σ.symm a)
  rw [Equiv.apply_symm_apply] at there
  exact there.symm

theorem mem (numbers : Numbers σ xs ys) {x : α} (hx : x ∈ xs) : x ∈ ys := by
  obtain ⟨a, found⟩ := List.getElem?_of_mem hx
  apply List.mem_of_getElem? (i := σ a)
  rw [numbers, found]

theorem mem_iff (numbers : Numbers σ xs ys) (x : α) : x ∈ xs ↔ x ∈ ys :=
  ⟨numbers.mem, numbers.symm.mem⟩

end Numbers

/-! ## Members -/

section Along

variable {α : Type} [DecidableEq α]

/-- The member of the second list that stands where the permutation sends the place of `x` in the
first one. -/
def along (ρ : Equiv.Perm Nat) (xs ys : List α) (x : α) : α := (ys[ρ (xs.idxOf x)]?).getD x

variable {ρ : Equiv.Perm Nat} {xs ys : List α}

theorem along_of_getElem? (nodup : xs.Nodup) {j : Nat} {x y : α} (found : xs[j]? = some x)
    (there : ys[ρ j]? = some y) : along ρ xs ys x = y := by
  rw [along, idxOf_of_getElem? nodup found, there, Option.getD_some]

theorem along_of_notMem (inside : ∀ j, ρ j < ys.length ↔ j < xs.length) {x : α} (missing : x ∉ xs) :
    along ρ xs ys x = x := by
  have outside : ys.length ≤ ρ (xs.idxOf x) := by
    rw [← Nat.not_lt, inside, List.idxOf_lt_length_iff]
    exact missing
  rw [along, List.getElem?_eq_none outside, Option.getD_none]

theorem along_along (nodup : xs.Nodup) (nodup' : ys.Nodup) (same : ∀ x, x ∈ ys ↔ x ∈ xs)
    (inside : ∀ j, ρ j < ys.length ↔ j < xs.length) (x : α) :
    along ρ.symm ys xs (along ρ xs ys x) = x := by
  by_cases hx : x ∈ xs
  · obtain ⟨j, found⟩ := List.getElem?_of_mem hx
    have below := (inside j).mpr (List.getElem?_eq_some_iff.mp found).1
    have there := List.getElem?_eq_getElem below
    rw [along_of_getElem? nodup found there]
    refine along_of_getElem? nodup' there ?_
    rwa [Equiv.symm_apply_apply]
  · rw [along_of_notMem inside hx]
    refine along_of_notMem (fun j => ?_) fun hx' => hx ((same x).mp hx')
    rw [← inside, Equiv.apply_symm_apply]

/-- A permutation of places between two lists of the same members permutes the members. -/
theorem exists_perm_along (nodup : xs.Nodup) (nodup' : ys.Nodup) (same : ∀ x, x ∈ ys ↔ x ∈ xs)
    (inside : ∀ j, ρ j < ys.length ↔ j < xs.length) :
    ∃ π : Equiv.Perm α, (∀ j, ys[ρ j]? = (xs[j]?).map π) ∧ ∀ x, x ∉ xs → π x = x := by
  have inside' (j : Nat) : ρ.symm j < xs.length ↔ j < ys.length := by
    rw [← inside, Equiv.apply_symm_apply]
  have back (x : α) : along ρ xs ys (along ρ.symm ys xs x) = x :=
    along_along (ρ := ρ.symm) nodup' nodup (fun x => (same x).symm) inside' x
  refine ⟨⟨along ρ xs ys, along ρ.symm ys xs, along_along nodup nodup' same inside, back⟩, ?_, ?_⟩
  · intro j
    cases found : xs[j]? with
    | none =>
      have outside := List.getElem?_eq_none_iff.mp found
      exact List.getElem?_eq_none (Nat.not_lt.mp ((inside j).not.mpr (Nat.not_lt.mpr outside)))
    | some x =>
      have below := (inside j).mpr (List.getElem?_eq_some_iff.mp found).1
      have there := List.getElem?_eq_getElem below
      rw [there]
      exact congrArg some (along_of_getElem? nodup found there).symm
  · exact fun x missing => along_of_notMem inside missing

end Along

end GraphSplice
