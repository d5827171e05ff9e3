/-!
The two ends of an edge. Edges are undirected: the order of the ends only tells the two ends of
a loop apart, so adjacency is stated by `Joins`, which ignores it.
-/

namespace GraphSplice

universe u v

inductive Side where
  | first
  | second
  deriving DecidableEq, Repr

namespace Side

def other : Side → Side
  | .first => .second
  | .second => .first

def toNat : Side → Nat
  | .first => 0
  | .second => 1

@[simp] theorem other_other (s : Side) : s.other.other = s := by cases s <;> rfl

theorem other_ne (s : Side) : s.other ≠ s := by cases s <;> simp [other]

end Side

structure Ends (α : Type u) where
  first : α
  second : α
  deriving DecidableEq, Repr

namespace Ends

variable {α : Type u} {β : Type v}

def get (x : Ends α) : Side → α
  | .first => x.first
  | .second => x.second

def toList (x : Ends α) : List α := [x.first, x.second]

def map (f : α → β) (x : Ends α) : Ends β := ⟨f x.first, f x.second⟩

def swap (x : Ends α) : Ends α := ⟨x.second, x.first⟩

def zip (x : Ends α) (y : Ends β) : Ends (α × β) := ⟨(x.first, y.first), (x.second, y.second)⟩

/-- The ends are `a` and `b`, in one order or the other. -/
def Joins (x : Ends α) (a b : α) : Prop := x = ⟨a, b⟩ ∨ x = ⟨b, a⟩

instance [DecidableEq α] (x : Ends α) (a b : α) : Decidable (x.Joins a b) :=
  inferInstanceAs (Decidable (x = ⟨a, b⟩ ∨ x = ⟨b, a⟩))

theorem joins_comm {x : Ends α} {a b : α} : x.Joins a b ↔ x.Joins b a := Or.comm

/-- `a` is one of the ends. -/
def Touches (x : Ends α) (a : α) : Prop := x.first = a ∨ x.second = a

instance [DecidableEq α] (x : Ends α) (a : α) : Decidable (x.Touches a) :=
  inferInstanceAs (Decidable (x.first = a ∨ x.second = a))

/-- The end across from `a`; a loop leads back to `a`. -/
def opposite? [DecidableEq α] (x : Ends α) (a : α) : Option α :=
  if x.first = a then some x.second else if x.second = a then some x.first else none

theorem opposite?_eq_some_iff [DecidableEq α] {x : Ends α} {a b : α} :
    x.opposite? a = some b ↔ x.Joins a b := by
  cases x with
  | mk p q =>
    by_cases hp : p = a <;> by_cases hq : q = a <;>
      simp_all [opposite?, Joins, eq_comm]

/-- The side on which `a` sits; the first one for a loop. -/
def sideAt? [DecidableEq α] (x : Ends α) (a : α) : Option Side :=
  if x.first = a then some .first else if x.second = a then some .second else none

theorem get_of_sideAt? [DecidableEq α] {x : Ends α} {a : α} {s : Side}
    (h : x.sideAt? a = some s) : x.get s = a := by
  unfold sideAt? at h
  split at h
  · cases h; assumption
  · split at h
    · cases h; assumption
    · cases h

end Ends

end GraphSplice
