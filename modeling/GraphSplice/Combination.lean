import GraphSplice.Search

/-!
Combinations: `k` of the numbers below `n`, ascending. They are visited one after the other in
lexicographic order, and each is made from the one before it in place. Every position and every
difference on the way is checked.
-/

namespace GraphSplice

universe u

inductive IndexFault where
  /-- A difference falls below zero. -/
  | underflow
  /-- There is no such position. -/
  | outOfRange
  deriving DecidableEq, Repr

namespace Combination

def minus (a b : Nat) : Except IndexFault Nat :=
  if b ≤ a then .ok (a - b) else .error .underflow

def entry (xs : List Nat) (i : Nat) : Except IndexFault Nat :=
  match xs[i]? with
  | some x => .ok x
  | none => .error .outOfRange

def put (xs : List Nat) (i x : Nat) : Except IndexFault (List Nat) :=
  if i < xs.length then .ok (xs.set i x) else .error .outOfRange

/-- The entry at `i` can be greater and still leave room for those behind it. -/
def canRise (n k : Nat) (xs : List Nat) (i : Nat) : Except IndexFault Bool := do
  let x ← entry xs i
  let room ← minus n k
  return decide (x < room + i)

def lastToRise (n k : Nat) (xs : List Nat) : Except IndexFault (Option Nat) :=
  (List.range k).reverse.findM? (canRise n k xs)

/-- Lets the entry at `j` follow the one before it. -/
def follow (xs : List Nat) (j : Nat) : Except IndexFault (List Nat) := do
  let before ← minus j 1
  let x ← entry xs before
  put xs j (x + 1)

/-- Raises the entry at `i` and lets all behind it follow one by one. -/
def raise (k : Nat) (xs : List Nat) (i : Nat) : Except IndexFault (List Nat) := do
  let x ← entry xs i
  let xs ← put xs i (x + 1)
  (List.range' (i + 1) (k - (i + 1))).foldlM follow xs

/-- The combination after `xs`, if there is one. -/
def next? (n k : Nat) (xs : List Nat) : Except IndexFault (Option (List Nat)) := do
  match ← lastToRise n k xs with
  | none => return none
  | some i => return some (← raise k xs i)

/-! ## How far it can go on -/

/-- How far the entries are below `n`, read as the digits that follow `high`. -/
def distance (n : Nat) : Nat → List Nat → Nat
  | high, [] => high
  | high, x :: rest => distance n (high * (n + 1) + (n - x)) rest

theorem distance_lt_of_high {n high high' : Nat} {xs ys : List Nat}
    (length : ys.length = xs.length) (less : high' < high) :
    distance n high' ys < distance n high xs := by
  induction xs generalizing high high' ys with
  | nil =>
    obtain rfl := List.length_eq_zero_iff.mp length
    exact less
  | cons x rest ih =>
    cases ys with
    | nil => cases length
    | cons y rest' =>
      have arity : rest'.length = rest.length := Nat.succ.inj length
      rw [distance, distance]
      refine ih arity ?_
      have digit : (high' + 1) * (n + 1) ≤ high * (n + 1) := Nat.mul_le_mul_right _ less
      rw [Nat.add_mul, Nat.one_mul] at digit
      omega

/-- The first entry that differs decides. -/
theorem distance_lt {n high i x y : Nat} {xs ys : List Nat} (length : ys.length = xs.length)
    (same : ∀ j < i, ys[j]? = xs[j]?) (hx : xs[i]? = some x) (hy : ys[i]? = some y) (less : x < y)
    (below : x < n) : distance n high ys < distance n high xs := by
  induction xs generalizing high i ys with
  | nil => simp at hx
  | cons a rest ih =>
    cases ys with
    | nil => cases length
    | cons b rest' =>
      have arity : rest'.length = rest.length := Nat.succ.inj length
      rw [distance, distance]
      cases i with
      | zero =>
        cases hx
        cases hy
        exact distance_lt_of_high arity (by omega)
      | succ i =>
        obtain rfl : b = a := Option.some.inj (same 0 (Nat.succ_pos i))
        exact ih arity (fun j hj => same (j + 1) (Nat.succ_lt_succ hj)) hx hy

theorem entry_eq_ok_iff {xs : List Nat} {i x : Nat} : entry xs i = .ok x ↔ xs[i]? = some x := by
  unfold entry
  cases xs[i]? <;> simp

theorem put_eq_ok_iff {xs ys : List Nat} {i x : Nat} :
    put xs i x = .ok ys ↔ i < xs.length ∧ xs.set i x = ys := by
  unfold put
  split <;> simp [*]

/-- Only the entry at `j` changes. -/
theorem set_of_follow {xs ys : List Nat} {j : Nat} (h : follow xs j = .ok ys) :
    ∃ x, xs.set j x = ys := by
  simp only [follow, bind, Except.bind] at h
  split at h
  · cases h
  · split at h
    · cases h
    · exact ⟨_, (put_eq_ok_iff.mp h).2⟩

/-- The entries in front of those that follow stay as they are. -/
theorem getElem?_of_foldlM_follow {js : List Nat} {i : Nat} (behind : ∀ j ∈ js, i < j)
    {xs ys : List Nat} (h : js.foldlM follow xs = .ok ys) :
    ys.length = xs.length ∧ ∀ l ≤ i, ys[l]? = xs[l]? := by
  induction js generalizing xs with
  | nil =>
    cases h
    exact ⟨rfl, fun _ _ => rfl⟩
  | cons j rest ih =>
    simp only [List.foldlM_cons, bind, Except.bind] at h
    split at h
    · cases h
    · next step =>
      obtain ⟨x, rfl⟩ := set_of_follow step
      obtain ⟨length, same⟩ := ih (fun l hl => behind l (List.mem_cons_of_mem j hl)) h
      rw [List.length_set] at length
      refine ⟨length, fun l hl => ?_⟩
      have less := behind j List.mem_cons_self
      rw [same l hl, List.getElem?_set_ne (by omega)]

theorem getElem?_of_raise {k i : Nat} {xs ys : List Nat} (h : raise k xs i = .ok ys) :
    ys.length = xs.length ∧ (∀ j < i, ys[j]? = xs[j]?) ∧
      ∃ x, xs[i]? = some x ∧ ys[i]? = some (x + 1) := by
  simp only [raise, bind, Except.bind] at h
  split at h
  · cases h
  · next x read =>
    split at h
    · cases h
    · next wrote =>
      obtain ⟨inside, rfl⟩ := put_eq_ok_iff.mp wrote
      have behind : ∀ j ∈ List.range' (i + 1) (k - (i + 1)), i < j := fun j hj => by
        have := List.mem_range'_1.mp hj
        omega
      obtain ⟨length, same⟩ := getElem?_of_foldlM_follow behind h
      refine ⟨length.trans List.length_set, fun j hj => ?_, x, entry_eq_ok_iff.mp read, ?_⟩
      · rw [same j (Nat.le_of_lt hj), List.getElem?_set_ne (by omega)]
      · rw [same i (Nat.le_refl i), List.getElem?_set_self inside]

theorem canRise_of_findM? {n k i : Nat} {xs positions : List Nat}
    (h : positions.findM? (canRise n k xs) = .ok (some i)) :
    i ∈ positions ∧ canRise n k xs i = .ok true := by
  induction positions with
  | nil => cases h
  | cons x rest ih =>
    simp only [List.findM?, bind, Except.bind] at h
    split at h
    · cases h
    · next ok asked =>
      cases ok with
      | false => exact (ih h).imp_left (List.mem_cons_of_mem x)
      | true =>
        cases h
        exact ⟨List.mem_cons_self, asked⟩

theorem lt_of_canRise {n k i x : Nat} {xs : List Nat} (h : canRise n k xs i = .ok true)
    (hi : i < k) (hx : xs[i]? = some x) : x < n := by
  simp only [canRise, entry_eq_ok_iff.mpr hx, minus, bind, Except.bind, pure, Except.pure] at h
  split at h
  · cases h
  · next fits =>
    split at fits
    · cases fits
      have less := of_decide_eq_true (Except.ok.inj h)
      omega
    · cases fits

theorem distance_next? {n k : Nat} {xs ys : List Nat} (h : next? n k xs = .ok (some ys)) :
    distance n 0 ys < distance n 0 xs := by
  simp only [next?, bind, Except.bind, pure, Except.pure] at h
  split at h
  · cases h
  · next found =>
    split at h
    · cases h
    · next i =>
      split at h
      · cases h
      · next raised =>
        cases h
        obtain ⟨inside, rises⟩ := canRise_of_findM? found
        obtain ⟨length, same, x, hx, hy⟩ := getElem?_of_raise raised
        have below := lt_of_canRise rises (List.mem_range.mp (List.mem_reverse.mp inside)) hx
        exact distance_lt length same hx hy (Nat.lt_succ_self x) below

/-! ## The visits -/

variable {σ : Type u}

/-- Visits `xs` and all combinations after it, until the visitor is done. -/
def visitFrom (n k : Nat) (visit : List Nat → σ → Flow × σ) (xs : List Nat) (s : σ) :
    Except IndexFault (Flow × σ) :=
  match visit xs s with
  | (.done, s) => .ok (.done, s)
  | (.more, s) =>
    match _following : next? n k xs with
    | .error fault => .error fault
    | .ok none => .ok (.more, s)
    | .ok (some ys) => visitFrom n k visit ys s
termination_by distance n 0 xs
decreasing_by exact distance_next? _following

/-- Visits the combinations of `k` numbers below `n` until the visitor is done. -/
def forEach (n k : Nat) (visit : List Nat → σ → Flow × σ) (s : σ) :
    Except IndexFault (Flow × σ) :=
  if n < k then .ok (.more, s) else visitFrom n k visit (List.range k) s

end Combination

end GraphSplice
