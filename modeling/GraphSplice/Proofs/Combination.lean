import GraphSplice.Combination
import GraphSplice.Proofs.Lists
import Mathlib.Data.List.Lex

/-!
All combinations, in lexicographic order. A combination that is not the last one is a beginning, an
entry that can rise and the greatest numbers there are behind it; the next one has the same
beginning and consecutive numbers after it, and no combination lies between the two. So the visits
are those of the list of all combinations.
-/

namespace GraphSplice

universe u

/-- The sublists of `count` items, those with earlier items first. -/
def combinations {α : Type} : Nat → List α → List (List α)
  | 0, _ => [[]]
  | _ + 1, [] => []
  | count + 1, x :: xs => (combinations count xs).map (x :: ·) ++ combinations (count + 1) xs

theorem mem_combinations_iff {α : Type} {count : Nat} {xs part : List α} :
    part ∈ combinations count xs ↔ part.Sublist xs ∧ part.length = count := by
  induction count, xs using combinations.induct generalizing part with
  | case1 xs =>
    rw [combinations, List.mem_singleton]
    constructor
    · rintro rfl
      exact ⟨List.nil_sublist xs, rfl⟩
    · exact fun h => List.length_eq_zero_iff.mp h.2
  | case2 count =>
    simp only [combinations, List.not_mem_nil, false_iff, List.sublist_nil]
    rintro ⟨rfl, length⟩
    cases length
  | case3 count x xs with_head without =>
    simp only [combinations, List.mem_append, List.mem_map, with_head, without,
      List.sublist_cons_iff]
    constructor
    · rintro (⟨rest, ⟨sub, rfl⟩, rfl⟩ | ⟨sub, length⟩)
      · exact ⟨.inr ⟨rest, rfl, sub⟩, rfl⟩
      · exact ⟨.inl sub, length⟩
    · rintro ⟨sub | ⟨rest, rfl, sub⟩, length⟩
      · exact .inr ⟨sub, length⟩
      · exact .inl ⟨rest, ⟨sub, Nat.succ.inj length⟩, rfl⟩

theorem sublist_range_iff {part : List Nat} {n : Nat} :
    part.Sublist (List.range n) ↔ part.Pairwise (· < ·) ∧ ∀ x ∈ part, x < n := by
  constructor
  · exact fun sub => ⟨List.pairwise_lt_range.sublist sub,
      fun x hx => List.mem_range.mp (sub.subset hx)⟩
  · rintro ⟨ascending, below⟩
    have same : part = (List.range n).filter (· ∈ part) := by
      refine eq_of_ascending id ascending (List.pairwise_lt_range.filter _) fun x => ?_
      rw [List.mem_filter, List.mem_range, decide_eq_true_eq]
      exact ⟨fun hx => ⟨below x hx, hx⟩, And.right⟩
    rw [same]
    exact List.filter_sublist

/-- Earlier items first: the order is the lexicographic one. -/
theorem pairwise_combinations {α : Type} {r : α → α → Prop} (count : Nat) {xs : List α}
    (ordered : xs.Pairwise r) : (combinations count xs).Pairwise (List.Lex r) := by
  induction count, xs using combinations.induct with
  | case1 xs =>
    rw [combinations]
    exact List.pairwise_singleton _ _
  | case2 count => exact .nil
  | case3 count x xs with_head without =>
    obtain ⟨first, ordered⟩ := List.pairwise_cons.mp ordered
    rw [combinations, List.pairwise_append]
    refine ⟨List.pairwise_map.mpr ((with_head ordered).imp .cons), without ordered, ?_⟩
    intro c hc d hd
    obtain ⟨rest, -, rfl⟩ := List.mem_map.mp hc
    obtain ⟨sub, length⟩ := mem_combinations_iff.mp hd
    cases d with
    | nil => cases length
    | cons y others => exact .rel (first y (sub.subset List.mem_cons_self))

/-- A list of `k` numbers below `n`, ascending. -/
structure IsCombination (n k : Nat) (c : List Nat) : Prop where
  length : c.length = k
  ascending : c.Pairwise (· < ·)
  below : ∀ x ∈ c, x < n

theorem mem_combinations_range_iff {n k : Nat} {c : List Nat} :
    c ∈ combinations k (List.range n) ↔ IsCombination n k c := by
  rw [mem_combinations_iff, sublist_range_iff]
  exact ⟨fun ⟨⟨ascending, below⟩, length⟩ => ⟨length, ascending, below⟩,
    fun ⟨length, ascending, below⟩ => ⟨⟨ascending, below⟩, length⟩⟩

namespace IsCombination

variable {n k m x : Nat} {c d rest : List Nat}

theorem tail (h : IsCombination n k (x :: c)) : IsCombination n c.length c :=
  ⟨rfl, h.ascending.of_cons, fun y hy => h.below y (List.mem_cons_of_mem x hy)⟩

/-- The numbers behind the first one need room. -/
theorem head_add_length_lt (h : IsCombination n k (x :: c)) : x + c.length < n := by
  induction c generalizing x k with
  | nil => exact h.below x List.mem_cons_self
  | cons y rest ih =>
    have room := ih h.tail
    have less := (List.pairwise_cons.mp h.ascending).1 y List.mem_cons_self
    rw [List.length_cons]
    omega

theorem le (h : IsCombination n k c) : k ≤ n := by
  cases c with
  | nil => exact h.length ▸ Nat.zero_le n
  | cons x rest =>
    have room := h.head_add_length_lt
    have length := h.length
    rw [List.length_cons] at length
    omega

/-- Consecutive numbers are the least ones that there are from some number on. -/
theorem range'_le (h : IsCombination n k c) {a : Nat} (above : ∀ x ∈ c, a ≤ x) :
    List.range' a k ≤ c := by
  induction c generalizing a k with
  | nil =>
    rw [← h.length]
    exact le_rfl
  | cons y rest ih =>
    obtain rfl := h.length
    rw [List.length_cons, List.range'_succ]
    rcases Nat.eq_or_lt_of_le (above y List.mem_cons_self) with rfl | less
    · exact List.cons_le_cons a (ih h.tail (List.pairwise_cons.mp h.ascending).1)
    · exact le_of_lt (List.Lex.rel less)

/-- The greatest numbers come last. -/
theorem le_range' (h : IsCombination n k c) : c ≤ List.range' (n - k) k := by
  induction c generalizing k with
  | nil =>
    rw [← h.length]
    exact le_rfl
  | cons x rest ih =>
    obtain rfl := h.length
    have room := h.head_add_length_lt
    have behind := ih h.tail
    have next : n - (rest.length + 1) + 1 = n - rest.length := by omega
    rw [List.length_cons, List.range'_succ, next]
    rcases Nat.eq_or_lt_of_le (show x ≤ n - (rest.length + 1) by omega) with same | less
    · exact same ▸ List.cons_le_cons x behind
    · exact le_of_lt (List.Lex.rel less)

/-- A combination is the last one, or it ends with an entry that can rise and the greatest numbers
there are. -/
theorem last_or_rises (h : IsCombination n k c) : c = List.range' (n - k) k ∨
    ∃ front x m, c = front ++ x :: List.range' (n - m) m ∧ x + 1 + m < n := by
  induction c generalizing k with
  | nil =>
    rw [← h.length]
    exact .inl rfl
  | cons x rest ih =>
    obtain rfl := h.length
    have room := h.head_add_length_lt
    rcases ih h.tail with last | ⟨front, y, m, same, less⟩
    · rcases Nat.eq_or_lt_of_le (show x ≤ n - (rest.length + 1) by omega) with top | less
      · left
        have next : x + 1 = n - rest.length := by omega
        rw [List.length_cons, List.range'_succ, ← top, next, ← last]
      · exact .inr ⟨[], x, rest.length, by rw [← last]; rfl, by omega⟩
    · exact .inr ⟨x :: front, y, m, congrArg _ same, less⟩

variable {front : List Nat}

theorem risen (h : IsCombination n k (front ++ x :: rest)) (room : x + 1 + rest.length < n) :
    IsCombination n k (front ++ List.range' (x + 1) (rest.length + 1)) := by
  obtain ⟨ascends, -, between⟩ := List.pairwise_append.mp h.ascending
  refine ⟨?_, List.pairwise_append.mpr ⟨ascends, List.pairwise_lt_range', ?_⟩, ?_⟩
  · rw [← h.length]
    simp
  · intro a ha b hb
    have less := between a ha x List.mem_cons_self
    have := List.mem_range'_1.mp hb
    omega
  · intro a ha
    rcases List.mem_append.mp ha with inFront | behind
    · exact h.below a (List.mem_append_left _ inFront)
    · have := List.mem_range'_1.mp behind
      omega

theorem lt_risen (front : List Nat) (x : Nat) (rest : List Nat) :
    front ++ x :: rest < front ++ List.range' (x + 1) (rest.length + 1) := by
  rw [List.range'_succ]
  exact List.Lex.append_left _ (.rel (Nat.lt_succ_self x)) front

/-- No combination lies between. -/
theorem risen_le (h : IsCombination n k d)
    (after : front ++ x :: List.range' (n - m) m < d) (length : front.length + (m + 1) = k) :
    front ++ List.range' (x + 1) (m + 1) ≤ d := by
  induction front generalizing d k with
  | nil =>
    obtain rfl : m + 1 = k := by simpa using length
    cases after with
    | @rel _ _ y others less =>
      refine h.range'_le fun z hz => ?_
      rcases List.mem_cons.mp hz with rfl | behind
      · exact less
      · have := (List.pairwise_cons.mp h.ascending).1 z behind
        omega
    | @cons _ _ others behind =>
      obtain rfl : others.length = m := Nat.succ.inj h.length
      exact absurd behind (not_lt_of_ge h.tail.le_range')
  | cons a front ih =>
    cases after with
    | rel less => exact le_of_lt (.rel less)
    | @cons _ _ others behind =>
      refine List.cons_le_cons a (ih h.tail behind ?_)
      have same := h.length
      simp only [List.length_cons] at length same
      omega

end IsCombination

/-! ## One step -/

namespace Combination

variable {n k m i x : Nat} {c front rest : List Nat}

theorem minus_of_le {a b : Nat} (h : b ≤ a) : minus a b = .ok (a - b) := if_pos h

theorem canRise_eq {xs : List Nat} (le : k ≤ n) (found : xs[i]? = some x) :
    canRise n k xs i = .ok (decide (x < n - k + i)) := by
  rw [canRise, entry_eq_ok_iff.mpr found, minus_of_le le]
  rfl

theorem findM?_reverse_range_none {p : Nat → Except IndexFault Bool}
    (refused : ∀ i < k, p i = .ok false) : (List.range k).reverse.findM? p = .ok none := by
  induction k with
  | zero => rfl
  | succ k ih =>
    rw [List.range_succ, List.reverse_concat, List.findM?, refused k (Nat.lt_succ_self k)]
    exact ih fun i hi => refused i (Nat.lt_succ_of_lt hi)

theorem findM?_reverse_range {p : Nat → Except IndexFault Bool} (found : p i = .ok true)
    (refused : ∀ j < m, p (i + 1 + j) = .ok false) :
    (List.range (i + 1 + m)).reverse.findM? p = .ok (some i) := by
  induction m with
  | zero =>
    rw [Nat.add_zero, List.range_succ, List.reverse_concat, List.findM?, found]
    rfl
  | succ m ih =>
    rw [← Nat.add_assoc, List.range_succ, List.reverse_concat, List.findM?,
      refused m (Nat.lt_succ_self m)]
    exact ih fun j hj => refused j (Nat.lt_succ_of_lt hj)

/-- The greatest numbers cannot rise. -/
theorem lastToRise_range' (le : k ≤ n) : lastToRise n k (List.range' (n - k) k) = .ok none := by
  refine findM?_reverse_range_none fun i hi => ?_
  have found : (List.range' (n - k) k)[i]? = some (n - k + i) := by
    rw [List.getElem?_range' hi, Nat.one_mul]
  rw [canRise_eq le found, decide_eq_false (Nat.lt_irrefl _)]

theorem lastToRise_eq (room : x + 1 + m < n) (le : front.length + 1 + m ≤ n) :
    lastToRise n (front.length + 1 + m) (front ++ x :: List.range' (n - m) m) =
      .ok (some front.length) := by
  refine findM?_reverse_range ?_ fun j hj => ?_
  · rw [canRise_eq le (x := x) (by simp), decide_eq_true (by omega)]
  · have found : (front ++ x :: List.range' (n - m) m)[front.length + 1 + j]? =
        some (n - m + j) := by
      rw [Nat.add_assoc, List.getElem?_append_right (by omega), Nat.add_sub_cancel_left,
        Nat.add_comm 1 j, List.getElem?_cons_succ, List.getElem?_range' hj, Nat.one_mul]
    rw [canRise_eq le found, decide_eq_false (by omega)]

theorem follow_eq (front : List Nat) (x y : Nat) (rest : List Nat) :
    follow (front ++ x :: y :: rest) (front.length + 1) = .ok (front ++ x :: (x + 1) :: rest) := by
  have read : entry (front ++ x :: y :: rest) front.length = .ok x :=
    entry_eq_ok_iff.mpr (by simp)
  have wrote : put (front ++ x :: y :: rest) (front.length + 1) (x + 1) =
      .ok (front ++ x :: (x + 1) :: rest) := put_eq_ok_iff.mpr ⟨by simp, by simp⟩
  simp only [follow, minus_of_le (Nat.le_add_left 1 _), Nat.add_sub_cancel, read, wrote, bind,
    Except.bind]

/-- The entries behind the one at the end of `front` come to follow it one by one. -/
theorem foldlM_follow (front : List Nat) (x : Nat) (rest : List Nat) :
    (List.range' (front.length + 1) rest.length).foldlM follow (front ++ x :: rest) =
      .ok (front ++ List.range' x (rest.length + 1)) := by
  induction rest generalizing front x with
  | nil => rfl
  | cons y rest ih =>
    have others := ih (front ++ [x]) (x + 1)
    rw [List.length_append, List.length_singleton, List.append_assoc, List.append_assoc] at others
    rw [List.length_cons, List.range'_succ, List.foldlM_cons, follow_eq, List.range'_succ]
    exact others

theorem raise_eq (front : List Nat) (x : Nat) (rest : List Nat) :
    raise (front.length + 1 + rest.length) (front ++ x :: rest) front.length =
      .ok (front ++ List.range' (x + 1) (rest.length + 1)) := by
  have read : entry (front ++ x :: rest) front.length = .ok x := entry_eq_ok_iff.mpr (by simp)
  have wrote : put (front ++ x :: rest) front.length (x + 1) = .ok (front ++ (x + 1) :: rest) :=
    put_eq_ok_iff.mpr ⟨by simp, by simp⟩
  simp only [raise, read, wrote, bind, Except.bind, Nat.add_sub_cancel_left]
  exact foldlM_follow front (x + 1) rest

/-- The step from a combination fails at no position. It leads to the next one in the order. -/
theorem next?_spec (h : IsCombination n k c) :
    (next? n k c = .ok none ∧ ∀ d, IsCombination n k d → d ≤ c) ∨
    ∃ c', next? n k c = .ok (some c') ∧ IsCombination n k c' ∧ c < c' ∧
      ∀ d, IsCombination n k d → c < d → c' ≤ d := by
  rcases h.last_or_rises with rfl | ⟨front, x, m, rfl, room⟩
  · left
    refine ⟨?_, fun d hd => hd.le_range'⟩
    rw [next?, lastToRise_range' h.le]
    rfl
  · right
    have length := h.length
    rw [List.length_append, List.length_cons, List.length_range'] at length
    have arranged : front.length + 1 + m = k := by omega
    have raised := raise_eq front x (List.range' (n - m) m)
    have risen := h.risen (by simpa using room)
    have less := IsCombination.lt_risen front x (List.range' (n - m) m)
    rw [List.length_range'] at raised risen less
    refine ⟨_, ?_, risen, less, fun d hd after => hd.risen_le after length⟩
    have last := lastToRise_eq room (arranged ▸ h.le)
    rw [arranged] at last raised
    rw [next?, last]
    change (raise _ _ _ >>= _) = _
    rw [raised]
    rfl

/-! ## All steps -/

variable {σ : Type u} {visit : List Nat → σ → Flow × σ} {c' : List Nat}

theorem visitFrom_of_next (next : next? n k c = .ok (some c')) (s : σ) :
    visitFrom n k visit c s =
      match visit c s with
      | (.done, s) => .ok (.done, s)
      | (.more, s) => visitFrom n k visit c' s := by
  rw [visitFrom]
  cases visit c s with
  | mk flow s' =>
    cases flow with
    | done => rfl
    | more => dsimp only; split <;> simp_all

theorem visitFrom_of_last (last : next? n k c = .ok none) (s : σ) :
    visitFrom n k visit c s = .ok (visit c s) := by
  rw [visitFrom]
  cases visit c s with
  | mk flow s' =>
    cases flow with
    | done => rfl
    | more => dsimp only; split <;> simp_all

/-- From a combination on, the visits are those of the list of what comes after it. -/
theorem visitFrom_eq {later : List (List Nat)} (h : IsCombination n k c)
    (ordered : (c :: later).Pairwise (· < ·))
    (all : ∀ d, d ∈ later ↔ IsCombination n k d ∧ c < d) (s : σ) :
    visitFrom n k visit c s = .ok (visitUntil visit (c :: later) s) := by
  induction later generalizing c s with
  | nil =>
    rcases next?_spec h with ⟨last, -⟩ | ⟨c', -, h', less, -⟩
    · rw [visitFrom_of_last last, visitUntil]
      cases visit c s with
      | mk flow s' => cases flow <;> rfl
    · exact absurd ((all c').mpr ⟨h', less⟩) List.not_mem_nil
  | cons d later ih =>
    obtain ⟨first, ordered'⟩ := List.pairwise_cons.mp ordered
    obtain ⟨hd, after⟩ := (all d).mp List.mem_cons_self
    rcases next?_spec h with ⟨-, greatest⟩ | ⟨c', next, h', less, least⟩
    · exact absurd after (not_lt_of_ge (greatest d hd))
    · -- The next combination is not before `d`, as it is one of those after `c`.
      obtain rfl : c' = d := by
        refine le_antisymm (least d hd after) ?_
        rcases List.mem_cons.mp ((all c').mpr ⟨h', less⟩) with same | behind
        · exact same.ge
        · exact le_of_lt ((List.pairwise_cons.mp ordered').1 c' behind)
      have rest : ∀ e, e ∈ later ↔ IsCombination n k e ∧ c' < e := by
        intro e
        constructor
        · intro he
          exact ⟨((all e).mp (List.mem_cons_of_mem c' he)).1,
            (List.pairwise_cons.mp ordered').1 e he⟩
        · rintro ⟨he, behind⟩
          rcases List.mem_cons.mp ((all e).mpr ⟨he, less.trans behind⟩) with rfl | inside
          · exact absurd behind (lt_irrefl e)
          · exact inside
      rw [visitFrom_of_next next, visitUntil]
      cases visit c s with
      | mk flow s' =>
        cases flow with
        | done => rfl
        | more => exact ih h' ordered' rest s'

theorem isCombination_range (le : k ≤ n) : IsCombination n k (List.range k) where
  length := List.length_range
  ascending := List.pairwise_lt_range
  below _ hx := Nat.lt_of_lt_of_le (List.mem_range.mp hx) le

theorem combinations_eq_nil (few : n < k) : combinations k (List.range n) = [] :=
  List.eq_nil_iff_forall_not_mem.mpr fun _ hc =>
    absurd (mem_combinations_range_iff.mp hc).le (Nat.not_le_of_lt few)

/-- The visits are those of the list of all combinations. -/
theorem forEach_eq (n k : Nat) (visit : List Nat → σ → Flow × σ) (s : σ) :
    forEach n k visit s = .ok (visitUntil visit (combinations k (List.range n)) s) := by
  have ordered : (combinations k (List.range n)).Pairwise (· < ·) :=
    pairwise_combinations k List.pairwise_lt_range
  have all : ∀ c, c ∈ combinations k (List.range n) ↔ IsCombination n k c :=
    fun _ => mem_combinations_range_iff
  unfold forEach
  by_cases few : n < k
  · rw [if_pos few, combinations_eq_nil few]
    rfl
  · rw [if_neg few]
    have least := isCombination_range (Nat.le_of_not_lt few)
    cases listed : combinations k (List.range n) with
    | nil => exact absurd ((all _).mpr least) (listed ▸ List.not_mem_nil)
    | cons c later =>
      rw [listed] at ordered all
      obtain ⟨first, -⟩ := List.pairwise_cons.mp ordered
      have hc := (all c).mp List.mem_cons_self
      obtain rfl : List.range k = c := by
        refine le_antisymm ?_ ?_
        · rw [List.range_eq_range']
          exact hc.range'_le fun _ _ => Nat.zero_le _
        · rcases List.mem_cons.mp ((all _).mpr least) with same | behind
          · exact same.ge
          · exact le_of_lt (first _ behind)
      refine visitFrom_eq least ordered (fun d => ?_) s
      constructor
      · exact fun hd => ⟨(all d).mp (List.mem_cons_of_mem _ hd), first d hd⟩
      · rintro ⟨hd, behind⟩
        rcases List.mem_cons.mp ((all d).mpr hd) with rfl | inside
        · exact absurd behind (lt_irrefl _)
        · exact inside

example : (forEach 4 2 (fun c seen => (.more, seen ++ [c])) []).toOption =
    some (.more, [[0, 1], [0, 2], [0, 3], [1, 2], [1, 3], [2, 3]]) := by decide +kernel

/-! ## What a visitor sees -/

/-- The visitor answers `more` to all of these in turn, and this leads from one state to another. -/
inductive Passes {α : Type} (visit : α → σ → Flow × σ) : List α → σ → σ → Prop
  | nil (s : σ) : Passes visit [] s s
  | cons {x : α} {rest : List α} {s s' s'' : σ} :
      visit x s = (.more, s') → Passes visit rest s' s'' → Passes visit (x :: rest) s s''

/-- The visitor with a record of what it has been shown. -/
def recording {α : Type} (visit : α → σ → Flow × σ) (x : α) : List α × σ → Flow × List α × σ
  | (seen, s) => ((visit x s).1, seen ++ [x], (visit x s).2)

/-- A visitor sees all items, or all up to the one at which it is done. -/
theorem visitUntil_recording {α : Type} (visit : α → σ → Flow × σ) (xs seen : List α) (s : σ) :
    (∃ s', Passes visit xs s s' ∧
      visitUntil (recording visit) xs (seen, s) = (.more, seen ++ xs, s')) ∨
    ∃ before x after s₁ s₂, xs = before ++ x :: after ∧ Passes visit before s s₁ ∧
      visit x s₁ = (.done, s₂) ∧
      visitUntil (recording visit) xs (seen, s) = (.done, seen ++ (before ++ [x]), s₂) := by
  induction xs generalizing seen s with
  | nil => exact .inl ⟨s, .nil s, by rw [visitUntil, List.append_nil]⟩
  | cons x rest ih =>
    cases visited : visit x s with
    | mk flow s' =>
      have shown : recording visit x (seen, s) = (flow, seen ++ [x], s') := by
        rw [recording, visited]
      rw [visitUntil, shown]
      cases flow with
      | done => exact .inr ⟨[], x, rest, s, s', rfl, .nil s, visited, rfl⟩
      | more =>
        rcases ih (seen ++ [x]) s' with
          ⟨s'', passes, ran⟩ | ⟨before, y, after, s₁, s₂, rfl, passes, stops, ran⟩
        · rw [List.append_assoc, List.singleton_append] at ran
          exact .inl ⟨s'', .cons visited passes, ran⟩
        · rw [List.append_assoc, List.singleton_append] at ran
          exact .inr ⟨x :: before, y, after, s₁, s₂, rfl, .cons visited passes, stops, ran⟩

/-- The enumeration comes to an end, with every position and every difference in range. A visitor
that is never done is shown all combinations, each once and in lexicographic order; any other one is
shown them up to the one at which it is done. -/
theorem forEach_exact (n k : Nat) : ∃ all : List (List Nat),
    (∀ c, c ∈ all ↔ IsCombination n k c) ∧ all.Pairwise (List.Lex (· < ·)) ∧
    (n < k → all = []) ∧ (k = 0 → all = [[]]) ∧
    ∀ (visit : List Nat → σ → Flow × σ) (s : σ),
      ((∀ c s, (visit c s).1 = .more) →
        ∃ s', forEach n k (recording visit) ([], s) = .ok (.more, all, s')) ∧
      ((∃ s', Passes visit all s s' ∧
          forEach n k (recording visit) ([], s) = .ok (.more, all, s')) ∨
        ∃ before c after s₁ s₂, all = before ++ c :: after ∧ Passes visit before s s₁ ∧
          visit c s₁ = (.done, s₂) ∧
          forEach n k (recording visit) ([], s) = .ok (.done, before ++ [c], s₂)) := by
  refine ⟨combinations k (List.range n), fun _ => mem_combinations_range_iff,
    pairwise_combinations k List.pairwise_lt_range, combinations_eq_nil, ?_, fun visit s => ?_⟩
  · rintro rfl
    rw [combinations]
  · rcases visitUntil_recording visit (combinations k (List.range n)) [] s with
      ⟨s', passes, ran⟩ | ⟨before, c, after, s₁, s₂, split, passes, stops, ran⟩
    · rw [List.nil_append] at ran
      have shown : forEach n k (recording visit) ([], s) =
          .ok (.more, combinations k (List.range n), s') := by rw [forEach_eq, ran]
      exact ⟨fun _ => ⟨s', shown⟩, .inl ⟨s', passes, shown⟩⟩
    · rw [List.nil_append] at ran
      refine ⟨fun never => ?_, .inr ⟨before, c, after, s₁, s₂, split, passes, stops, ?_⟩⟩
      · have goesOn := never c s₁
        rw [stops] at goesOn
        cases goesOn
      · rw [forEach_eq, ran]

end Combination

end GraphSplice
