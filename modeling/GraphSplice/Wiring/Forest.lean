import GraphSplice.Ascending

/-!
Disjoint sets of positions. Every position points to itself or to a lower one, so following the
pointers ends, at the lowest member of the set. On the way, every other position is pointed past its
parent, so that later ways are shorter.
-/

namespace GraphSplice

structure Forest where
  parents : Array Nat
  parent_le : ∀ i parent : Nat, parents[i]? = some parent → parent ≤ i

namespace Forest

def singletons (n : Nat) : Forest where
  parents := Array.range n
  parent_le i parent h := by
    rw [Array.getElem?_eq_some_iff] at h
    obtain ⟨_, rfl⟩ := h
    simp

/-- Points `high` to a lower position. -/
def link (f : Forest) (low high : Nat) (h : low ≤ high) : Forest where
  parents := f.parents.setIfInBounds high low
  parent_le i parent hi := by
    rw [Array.getElem?_setIfInBounds] at hi
    split at hi
    · split at hi
      · cases hi
        omega
      · cases hi
    · exact f.parent_le i parent hi

/-- The position that `i` points to. -/
def parent (f : Forest) (i : Nat) : Nat := (f.parents[i]?).getD i

theorem parent_le_self (f : Forest) (i : Nat) : f.parent i ≤ i := by
  unfold parent
  cases found : f.parents[i]? with
  | none => exact Nat.le_refl i
  | some parent => exact f.parent_le i parent found

/-- The lowest member of the set of `i`. Each position on the way that is not the last one comes to
point to its grandparent, where the search goes on. -/
def find (f : Forest) (i : Nat) : Nat × Forest :=
  if f.parent i = i then (i, f)
  else
    let above := f.parent (f.parent i)
    (f.link above i (Nat.le_trans (f.parent_le_self _) (f.parent_le_self i))).find above
termination_by i
decreasing_by
  have first := f.parent_le_self i
  have second := f.parent_le_self (f.parent i)
  omega

/-- Unites the sets of `a` and `b`. -/
def join (f : Forest) (a b : Nat) : Forest :=
  let first := f.find a
  let second := first.2.find b
  if h : first.1 < second.1 then second.2.link first.1 second.1 (Nat.le_of_lt h)
  else if h : second.1 < first.1 then second.2.link second.1 first.1 (Nat.le_of_lt h)
  else second.2

/-- Notes a position that is not lowest in its set, behind the lowest member. -/
def noteFolded (state : Forest × List (Nat × Nat)) (i : Nat) : Forest × List (Nat × Nat) :=
  let found := state.1.find i
  (found.2, if found.1 = i then state.2 else (found.1, i) :: state.2)

/-- The positions that are not lowest in their set, each behind the lowest member, ascending. -/
def folded (f : Forest) : List (Nat × Nat) :=
  ((List.range f.parents.size).foldl noteFolded (f, [])).2.reverse

/-- The sets of at least two positions, by lowest member, which comes apart from the others. -/
def classes (f : Forest) : List (Nat × List Nat) :=
  let folded := f.folded
  (Ascending.ofList (folded.map (·.1))).map fun root =>
    (root, (folded.filter (·.1 = root)).map (·.2))

end Forest

end GraphSplice
