import Mathlib.Algebra.Group.Nat.Even
import Mathlib.Data.Nat.Find

/-!
Walks in a symmetric relation, counted by their steps. In a part without closed walks of odd
length, two points are at even distance exactly when some walk of even length joins them.
-/

namespace GraphSplice

universe u v
variable {α : Type u} {β : Type v} {R : α → α → Prop}

/-- A walk of the given number of steps. -/
def Walk (R : α → α → Prop) : Nat → α → α → Prop
  | 0, a, b => a = b
  | n + 1, a, b => ∃ c, Walk R n a c ∧ R c b

/-- Some walk joins the two points. -/
def Connected (R : α → α → Prop) (a b : α) : Prop := ∃ n, Walk R n a b

/-- The shortest walk between the two points has an even number of steps. -/
def AtEvenDistance (R : α → α → Prop) (a b : α) : Prop :=
  ∃ n, Even n ∧ Walk R n a b ∧ ∀ m < n, ¬ Walk R m a b

/-- Some closed walk from the point has an odd number of steps. -/
def OnOddWalk (R : α → α → Prop) (a : α) : Prop := ∃ n, ¬ Even n ∧ Walk R n a a

namespace Walk

@[simp] theorem zero_iff {a b : α} : Walk R 0 a b ↔ a = b := Iff.rfl

theorem single {a b : α} (h : R a b) : Walk R 1 a b := ⟨a, rfl, h⟩

theorem append {m n : Nat} {a b c : α} (first : Walk R m a b) (second : Walk R n b c) :
    Walk R (m + n) a c := by
  induction n generalizing c with
  | zero =>
    obtain rfl := zero_iff.mp second
    exact first
  | succ n ih =>
    obtain ⟨d, walk, step⟩ := second
    exact ⟨d, ih walk, step⟩

theorem reverse (symm : ∀ a b, R a b → R b a) {n : Nat} {a b : α} (h : Walk R n a b) :
    Walk R n b a := by
  induction n generalizing b with
  | zero => exact Eq.symm h
  | succ n ih =>
    obtain ⟨c, walk, step⟩ := h
    have joined := append (single (symm c b step)) (ih walk)
    rwa [Nat.add_comm] at joined

/-- A walk stays in any set that is closed under steps. -/
theorem mem_of_closed {S : α → Prop} (closed : ∀ a b, S a → R a b → S b) {n : Nat} {a b : α}
    (h : Walk R n a b) (ha : S a) : S b := by
  induction n generalizing b with
  | zero =>
    obtain rfl := zero_iff.mp h
    exact ha
  | succ n ih =>
    obtain ⟨c, walk, step⟩ := h
    exact closed c b (ih walk) step

/-- A map that neither loses nor invents steps at its images carries walks both ways. -/
theorem map_iff {S : β → β → Prop} {f : β → α} {P : β → Prop}
    (closed : ∀ x y, P x → S x y → P y)
    (steps : ∀ x, P x → ∀ b, R (f x) b ↔ ∃ y, f y = b ∧ S x y) {n : Nat} {x : β} (hx : P x)
    {b : α} : Walk R n (f x) b ↔ ∃ y, f y = b ∧ Walk S n x y := by
  induction n generalizing b with
  | zero =>
    constructor
    · intro h
      exact ⟨x, h, rfl⟩
    · rintro ⟨y, rfl, rfl⟩
      rfl
  | succ n ih =>
    constructor
    · rintro ⟨c, walk, step⟩
      obtain ⟨y, rfl, lifted⟩ := ih.mp walk
      obtain ⟨z, rfl, last⟩ := (steps y (mem_of_closed closed lifted hx) b).mp step
      exact ⟨z, rfl, y, lifted, last⟩
    · rintro ⟨z, rfl, y, walk, step⟩
      exact ⟨f y, ih.mpr ⟨y, rfl, walk⟩,
        (steps y (mem_of_closed closed walk hx) _).mpr ⟨z, rfl, step⟩⟩

end Walk

theorem Connected.refl (a : α) : Connected R a a := ⟨0, rfl⟩

theorem Connected.symm (symm : ∀ a b, R a b → R b a) {a b : α} (h : Connected R a b) :
    Connected R b a := by
  obtain ⟨n, walk⟩ := h
  exact ⟨n, walk.reverse symm⟩

theorem Connected.trans {a b c : α} (first : Connected R a b) (second : Connected R b c) :
    Connected R a c := by
  obtain ⟨m, walk⟩ := first
  obtain ⟨n, more⟩ := second
  exact ⟨m + n, walk.append more⟩

theorem Connected.single {a b : α} (h : R a b) : Connected R a b := ⟨1, Walk.single h⟩

/-- Odd closed walks are a matter of the whole component. -/
theorem OnOddWalk.of_connected (symm : ∀ a b, R a b → R b a) {a b : α} (odd : OnOddWalk R a)
    (h : Connected R a b) : OnOddWalk R b := by
  obtain ⟨n, parity, closed⟩ := odd
  obtain ⟨m, walk⟩ := h
  refine ⟨m + n + m, ?_, ((walk.reverse symm).append closed).append walk⟩
  intro even
  apply parity
  have rearranged : m + n + m = n + 2 * m := by omega
  rw [rearranged] at even
  exact (Nat.even_add.mp even).mpr ⟨m, by omega⟩

/-- In a star every second point of a walk from the centre is the centre. -/
theorem not_onOddWalk_of_star {a : α} {T : α → Prop} (out : ∀ b, R a b → T b)
    (back : ∀ b c, T b → R b c → c = a) (apart : ¬ T a) : ¬ OnOddWalk R a := by
  have alternates : ∀ n b, Walk R n a b → if Even n then b = a else T b := by
    intro n
    induction n with
    | zero =>
      intro b walk
      rw [if_pos Even.zero]
      exact (Walk.zero_iff.mp walk).symm
    | succ n ih =>
      rintro b ⟨c, walk, step⟩
      have before := ih c walk
      by_cases even : Even n
      · rw [if_pos even] at before
        rw [if_neg (Nat.even_add_one.not.mpr (not_not.mpr even))]
        subst before
        exact out b step
      · rw [if_neg even] at before
        rw [if_pos (Nat.even_add_one.mpr even)]
        exact back c b before step
  rintro ⟨n, parity, closed⟩
  have last := alternates n a closed
  rw [if_neg parity] at last
  exact apart last

/-- All walks between two points have one parity unless the component has an odd closed walk. -/
theorem Walk.even_iff_even (symm : ∀ a b, R a b → R b a) {a b : α} (balanced : ¬ OnOddWalk R a)
    {m n : Nat} (first : Walk R m a b) (second : Walk R n a b) : Even m ↔ Even n := by
  by_contra different
  refine balanced ⟨m + n, ?_, first.append (second.reverse symm)⟩
  rwa [Nat.even_add]

theorem atEvenDistance_iff (symm : ∀ a b, R a b → R b a) {a b : α} (balanced : ¬ OnOddWalk R a) :
    AtEvenDistance R a b ↔ ∃ n, Even n ∧ Walk R n a b := by
  classical
  constructor
  · rintro ⟨n, even, walk, -⟩
    exact ⟨n, even, walk⟩
  · rintro ⟨n, even, walk⟩
    have reached : ∃ n, Walk R n a b := ⟨n, walk⟩
    have shortest := Nat.find_spec reached
    exact ⟨Nat.find reached, (shortest.even_iff_even symm balanced walk).mpr even, shortest,
      fun m shorter => Nat.find_min reached shorter⟩

end GraphSplice
