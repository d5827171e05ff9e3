import GraphSplice.Wiring

/-!
The components of the sockets under links, each walked breadth first from its lowest socket.
The walk gives every socket a side, the other one than the socket it was reached from; a link
between sockets of one side shows a closed walk of odd length.
-/

namespace GraphSplice.Wiring

/-- A walk in progress. Sockets that wait in the queue have their side already. -/
structure Sweep where
  sides : Array (Option Side)
  queue : List (JointId × Side)
  visited : List (JointId × Side)
  odd : Bool

namespace Sweep

/-- How many cells have no side yet. -/
def unreached (s : Sweep) : Nat := s.sides.toList.countP (·.isNone)

/-- Looks along a link from a socket on `side` to `socket`. -/
def look (side : Side) (s : Sweep) (socket : JointId) : Sweep :=
  match s.sides[socket]? with
  | none => s
  | some (some known) => { s with odd := s.odd || known == side }
  | some none =>
    { s with
      sides := s.sides.setIfInBounds socket (some side.other)
      queue := s.queue ++ [(socket, side.other)] }

theorem countP_isNone_set (xs : List (Option Side)) {i : Nat} (x : Side) (h : xs[i]? = some none) :
    (xs.set i (some x)).countP (·.isNone) + 1 = xs.countP (·.isNone) := by
  induction xs generalizing i with
  | nil => simp at h
  | cons y ys ih =>
    cases i with
    | zero => simp_all
    | succ i =>
      have rest := ih (i := i) (by simpa using h)
      simp only [List.set_cons_succ, List.countP_cons]
      omega

theorem look_measure (side : Side) (s : Sweep) (socket : JointId) :
    (look side s socket).unreached + (look side s socket).queue.length =
      s.unreached + s.queue.length := by
  unfold look
  split
  · rfl
  · rfl
  · next h =>
    have less := countP_isNone_set s.sides.toList side.other (i := socket) (by simpa using h)
    simp only [unreached, Array.toList_setIfInBounds, List.length_append, List.length_cons,
      List.length_nil]
    omega

theorem foldl_look_measure (side : Side) (sockets : List JointId) (s : Sweep) :
    (sockets.foldl (look side) s).unreached + (sockets.foldl (look side) s).queue.length =
      s.unreached + s.queue.length := by
  induction sockets generalizing s with
  | nil => rfl
  | cons x xs ih => rw [List.foldl_cons, ih, look_measure]

end Sweep

/-- The sockets across the links at a socket, once per link. -/
def linked (w : Wiring) (j : JointId) : List JointId :=
  (w.links j).filterMap fun e => w.opposite? e j

/-- Walks on until the queue is empty. -/
def sweep (w : Wiring) : Sweep → Sweep
  | ⟨sides, [], visited, odd⟩ => ⟨sides, [], visited, odd⟩
  | ⟨sides, (socket, side) :: rest, visited, odd⟩ =>
    w.sweep ((w.linked socket).foldl (Sweep.look side)
      ⟨sides, rest, visited ++ [(socket, side)], odd⟩)
termination_by s => s.unreached + s.queue.length
decreasing_by
  rw [Sweep.foldl_look_measure]
  simp only [Sweep.unreached, List.length_cons]
  omega

structure Component where
  /-- The sockets in the order of the walk, with their sides. -/
  sockets : List (JointId × Side)
  /-- Two linked sockets got the same side. -/
  odd : Bool
  deriving DecidableEq, Repr

def Component.onSide (c : Component) (side : Side) : List JointId :=
  (c.sockets.filter (·.2 = side)).map (·.1)

structure Partition where
  sides : Array (Option Side)
  components : List Component

/-- Adds the component of `start`, unless the socket has been reached or has no link. -/
def Partition.grow (w : Wiring) (p : Partition) (start : JointId) : Partition :=
  if p.sides[start]? = some none ∧ w.links start ≠ [] then
    let walked := w.sweep
      ⟨p.sides.setIfInBounds start (some .first), [(start, .first)], [], false⟩
    ⟨walked.sides, p.components ++ [⟨walked.visited, walked.odd⟩]⟩
  else p

/-- The components of the linked sockets, by lowest socket. -/
def components (w : Wiring) : List Component :=
  (w.liveSockets.foldl (Partition.grow w) ⟨Array.replicate w.joints.size none, []⟩).components

end GraphSplice.Wiring
