import GraphSplice.Proofs.Walk
import GraphSplice.Proofs.Wiring.Soundness

/-!
The breadth-first walk finds the components of the sockets under links. The invariant of a walk
says that the sockets reached are those with a side beyond the sides at its start, that each was
reached by a walk whose parity is its side, and that a link between sockets of one side is noted.
-/

namespace GraphSplice

namespace Wiring

/-- Some link joins the two sockets. -/
def LinkedTo (w : Wiring) (a b : JointId) : Prop :=
  ∃ e ends origin, w.wire? e = some ⟨ends, .link origin⟩ ∧ ends.Joins a b

variable {w : Wiring}

theorem LinkedTo.symm (a b : JointId) (h : w.LinkedTo a b) : w.LinkedTo b a := by
  obtain ⟨e, ends, origin, found, joins⟩ := h
  exact ⟨e, ends, origin, found, Ends.joins_comm.mp joins⟩

theorem LinkedTo.isSocket {a b : JointId} (sound : w.Sound) (h : w.LinkedTo a b) :
    w.IsSocket a := by
  obtain ⟨e, ends, origin, found, joins⟩ := h
  obtain ⟨first, second⟩ := sound.link e ends origin found
  rcases joins.touches.1 with rfl | rfl
  · exact first
  · exact second

theorem isLink_iff {e : WireId} :
    w.isLink e = true ↔ ∃ ends origin, w.wire? e = some ⟨ends, .link origin⟩ := by
  unfold isLink
  cases h : w.wire? e with
  | none => simp
  | some wire =>
    obtain ⟨ends, kind⟩ := wire
    cases kind <;> simp [WireKind.isLink]

theorem mem_links_iff (sound : w.Sound) {e : WireId} {j : JointId} :
    e ∈ w.links j ↔ ∃ ends origin, w.wire? e = some ⟨ends, .link origin⟩ ∧ ends.Touches j := by
  rw [links, List.mem_filter, sound.mem_incident_iff, isLink_iff]
  constructor
  · rintro ⟨⟨wire, found, touches⟩, ends, origin, found'⟩
    rw [found] at found'
    cases found'
    exact ⟨ends, origin, found, touches⟩
  · rintro ⟨ends, origin, found, touches⟩
    exact ⟨⟨_, found, touches⟩, ends, origin, found⟩

theorem mem_linked_iff (sound : w.Sound) {j k : JointId} : k ∈ w.linked j ↔ w.LinkedTo j k := by
  simp only [linked, List.mem_filterMap, mem_links_iff sound, opposite?]
  constructor
  · rintro ⟨e, ⟨ends, origin, found, -⟩, across⟩
    rw [found] at across
    exact ⟨e, ends, origin, found, Ends.opposite?_eq_some_iff.mp across⟩
  · rintro ⟨e, ends, origin, found, joins⟩
    refine ⟨e, ⟨ends, origin, found, joins.touches.1⟩, ?_⟩
    rw [found]
    exact Ends.opposite?_eq_some_iff.mpr joins

theorem links_ne_nil_iff (sound : w.Sound) {j : JointId} :
    w.links j ≠ [] ↔ ∃ k, w.LinkedTo j k := by
  constructor
  · intro h
    obtain ⟨e, h⟩ := List.exists_mem_of_ne_nil _ h
    obtain ⟨ends, origin, found, touches⟩ := (mem_links_iff sound).mp h
    obtain ⟨k, joins⟩ := touches.joins
    exact ⟨k, e, ends, origin, found, joins⟩
  · rintro ⟨k, e, ends, origin, found, joins⟩
    exact List.ne_nil_of_mem ((mem_links_iff sound).mpr ⟨ends, origin, found, joins.touches.1⟩)

theorem mem_liveSockets_iff {j : JointId} : j ∈ w.liveSockets ↔ w.IsSocket j := by
  rw [liveSockets, List.mem_filter, List.mem_range, isSocket_iff]
  exact ⟨fun h => h.2, fun h => ⟨lt_size_of_isLive h.isLive, h⟩⟩

theorem liveSockets_ascending (w : Wiring) : w.liveSockets.Pairwise (· < ·) :=
  List.Pairwise.filter _ List.pairwise_lt_range

/-! ## One walk -/

namespace Sweep

/-- The sockets that have got a side on this walk. -/
def reached (s : Sweep) : List (JointId × Side) := s.visited ++ s.queue

/-- The walk from `start` over the sides given before it. -/
structure Valid (w : Wiring) (base : Array (Option Side)) (start : JointId) (s : Sweep) : Prop where
  size : s.sides.size = base.size
  sides : ∀ j side,
    s.sides[j]? = some (some side) ↔ base[j]? = some (some side) ∨ (j, side) ∈ s.reached
  fresh : ∀ x ∈ s.reached, base[x.1]? = some none
  nodup : (s.reached.map (·.1)).Nodup
  walk : ∀ x ∈ s.reached, ∃ n, Walk w.LinkedTo n start x.1 ∧ (Even n ↔ x.2 = .first)
  odd : s.odd = true → ∃ x ∈ s.reached, ∃ y ∈ s.reached, x.2 = y.2 ∧ w.LinkedTo x.1 y.1

/-- The socket has been looked at from one on `side`, and noted if it is on that side too. -/
def Noted (s : Sweep) (side : Side) (socket : JointId) : Prop :=
  ∃ other, (socket, other) ∈ s.reached ∧ (other = side → s.odd = true)

def Explored (w : Wiring) (s : Sweep) : Prop :=
  ∀ x ∈ s.visited, ∀ k, w.LinkedTo x.1 k → s.Noted x.2 k

/-- The later walk has seen all that the earlier one had. -/
structure Extends (s t : Sweep) : Prop where
  reached : s.reached ⊆ t.reached
  odd : s.odd = true → t.odd = true

theorem Extends.refl (s : Sweep) : s.Extends s := ⟨fun _ h => h, fun h => h⟩

theorem Extends.trans {s t u : Sweep} (first : s.Extends t) (second : t.Extends u) : s.Extends u :=
  ⟨fun _ h => second.reached (first.reached h), fun h => second.odd (first.odd h)⟩

theorem Noted.extend {s t : Sweep} {side : Side} {socket : JointId} (h : s.Noted side socket)
    (extends' : s.Extends t) : t.Noted side socket := by
  obtain ⟨other, mem, noted⟩ := h
  exact ⟨other, extends'.reached mem, fun same => extends'.odd (noted same)⟩

variable {base : Array (Option Side)} {start : JointId} {s : Sweep}

/-- What looking at a socket from one on `side` leads to. -/
structure Looked (w : Wiring) (base : Array (Option Side)) (start : JointId) (side : Side)
    (socket : JointId) (s t : Sweep) : Prop where
  valid : t.Valid w base start
  extends' : s.Extends t
  visited : t.visited = s.visited
  noted : t.Noted side socket

section Look

variable (valid : s.Valid w base start) {x : JointId × Side} (hx : x ∈ s.reached) {k : JointId}
  (linked : w.LinkedTo x.1 k) (free : base[k]? = some none)

include valid hx linked free

/-- A socket that has a side keeps it. -/
theorem Valid.look_known {known : Side} (hk : s.sides[k]? = some (some known)) :
    Looked w base start x.2 k s (look x.2 s k) := by
  have unfolded : Sweep.look x.2 s k = { s with odd := s.odd || known == x.2 } := by
    simp [Sweep.look, hk]
  have mem : (k, known) ∈ s.reached := by
    rcases (valid.sides k known).mp hk with old | new
    · rw [free] at old
      cases old
    · exact new
  rw [unfolded]
  refine ⟨{ valid with odd := ?_ }, ⟨fun _ h => h, fun h => by simp [h]⟩, rfl, known, mem,
    fun same => by simp [same]⟩
  intro h
  simp only [Bool.or_eq_true, beq_iff_eq] at h
  rcases h with old | same
  · exact valid.odd old
  · exact ⟨x, hx, (k, known), mem, same.symm, linked⟩

/-- A socket without a side gets the other one and waits in the queue. -/
theorem Valid.look_new (hk : s.sides[k]? = some none) :
    Looked w base start x.2 k s (look x.2 s k) := by
  have inside : k < s.sides.size := (Array.getElem?_eq_some_iff.mp hk).1
  have unfolded : Sweep.look x.2 s k =
      { s with
        sides := s.sides.setIfInBounds k (some x.2.other)
        queue := s.queue ++ [(k, x.2.other)] } := by
    simp [Sweep.look, hk]
  have reached' : (Sweep.look x.2 s k).reached = s.reached ++ [(k, x.2.other)] := by
    simp [unfolded, reached]
  have mem_reached {y : JointId × Side} :
      y ∈ (Sweep.look x.2 s k).reached ↔ y ∈ s.reached ∨ y = (k, x.2.other) := by
    rw [reached', List.mem_append, List.mem_singleton]
  have unreached : k ∉ s.reached.map (·.1) := by
    intro listed
    obtain ⟨⟨_, side⟩, member, rfl⟩ := List.mem_map.mp listed
    rw [(valid.sides _ side).mpr (.inr member)] at hk
    cases hk
  have extends' : s.Extends (Sweep.look x.2 s k) :=
    ⟨fun y hy => mem_reached.mpr (.inl hy), fun h => by rw [unfolded]; exact h⟩
  refine ⟨?valid, extends', by rw [unfolded], x.2.other, mem_reached.mpr (.inr rfl),
    fun same => absurd same (Side.other_ne x.2)⟩
  constructor
  case size =>
    rw [unfolded]
    simp [valid.size]
  case sides =>
    intro j side
    rw [mem_reached, ← or_assoc, ← valid.sides j side]
    simp only [unfolded, Array.getElem?_setIfInBounds]
    by_cases hj : k = j
    · subst hj
      rw [hk]
      simp only [if_true, inside, Option.some.injEq, Prod.mk.injEq, true_and, reduceCtorEq,
        false_or]
      exact eq_comm
    · simp [hj, Ne.symm hj]
  case fresh =>
    intro y hy
    rcases mem_reached.mp hy with old | rfl
    · exact valid.fresh y old
    · exact free
  case nodup =>
    rw [reached', List.map_append]
    exact valid.nodup.append (List.nodup_singleton _) (by simpa using unreached)
  case walk =>
    intro y hy
    rcases mem_reached.mp hy with old | rfl
    · exact valid.walk y old
    · obtain ⟨n, walk, parity⟩ := valid.walk x hx
      refine ⟨n + 1, ⟨x.1, walk, linked⟩, ?_⟩
      rw [Nat.even_add_one, parity]
      cases x.2 <;> simp [Side.other]
  case odd =>
    intro h
    have old : s.odd = true := by simpa [unfolded] using h
    obtain ⟨y, hy, z, hz, same, joined⟩ := valid.odd old
    exact ⟨y, extends'.reached hy, z, extends'.reached hz, same, joined⟩

theorem Valid.look : Looked w base start x.2 k s (look x.2 s k) := by
  have inside : k < s.sides.size := by
    rw [valid.size]
    exact (Array.getElem?_eq_some_iff.mp free).1
  have found := Array.getElem?_eq_getElem inside
  cases cell : s.sides[k] with
  | some known => exact valid.look_known hx linked free (found.trans (congrArg some cell))
  | none => exact valid.look_new hx linked free (found.trans (congrArg some cell))

end Look

theorem Valid.lookAll {x : JointId × Side} (closed : ∀ j k, w.LinkedTo j k →
    base[j]? = some none → base[k]? = some none) (sockets : List JointId) :
    ∀ s : Sweep, s.Valid w base start → x ∈ s.reached → (∀ k ∈ sockets, w.LinkedTo x.1 k) →
      (sockets.foldl (Sweep.look x.2) s).Valid w base start ∧
        s.Extends (sockets.foldl (Sweep.look x.2) s) ∧
        (sockets.foldl (Sweep.look x.2) s).visited = s.visited ∧
        ∀ k ∈ sockets, (sockets.foldl (Sweep.look x.2) s).Noted x.2 k := by
  induction sockets with
  | nil =>
    intro s valid _ _
    exact ⟨valid, .refl s, rfl, by simp⟩
  | cons k rest ih =>
    intro s valid hx linked
    have free := closed x.1 k (linked k List.mem_cons_self) (valid.fresh x hx)
    obtain ⟨valid₁, extends₁, visited₁, noted₁⟩ := valid.look hx (linked k List.mem_cons_self) free
    obtain ⟨valid', extends', visited', noted'⟩ := ih _ valid₁ (extends₁.reached hx)
      fun j hj => linked j (List.mem_cons_of_mem _ hj)
    refine ⟨valid', extends₁.trans extends', visited'.trans visited₁, ?_⟩
    intro j hj
    rcases List.mem_cons.mp hj with rfl | hj
    · exact noted₁.extend extends'
    · exact noted' j hj

end Sweep

/-- The walk ends with an empty queue, and everything linked to what it visited is visited. -/
theorem sweep_spec (sound : w.Sound) {base : Array (Option Side)} {start : JointId}
    (closed : ∀ j k, w.LinkedTo j k → base[j]? = some none → base[k]? = some none) (s : Sweep) :
    s.Valid w base start → s.Explored w →
      (w.sweep s).Valid w base start ∧ (w.sweep s).Explored w ∧ s.Extends (w.sweep s) ∧
        (w.sweep s).queue = [] := by
  fun_induction w.sweep s with
  | case1 sides visited odd =>
    intro valid explored
    exact ⟨valid, explored, .refl _, rfl⟩
  | case2 sides socket side rest visited odd ih =>
    intro valid explored
    set popped : Sweep := ⟨sides, rest, visited ++ [(socket, side)], odd⟩ with hp
    have same : popped.reached =
        Sweep.reached ⟨sides, (socket, side) :: rest, visited, odd⟩ := by
      simp [hp, Sweep.reached]
    have valid₀ : popped.Valid w base start := by
      refine ⟨valid.size, ?_, ?_, ?_, ?_, ?_⟩ <;> rw [same]
      · exact valid.sides
      · exact valid.fresh
      · exact valid.nodup
      · exact valid.walk
      · exact valid.odd
    have here : (socket, side) ∈ popped.reached := by simp [hp, Sweep.reached]
    obtain ⟨valid₁, extends₁, visited₁, noted₁⟩ := Sweep.Valid.lookAll closed (w.linked socket)
      popped valid₀ here fun k hk => (mem_linked_iff sound).mp hk
    have explored₁ : ((w.linked socket).foldl (Sweep.look side) popped).Explored w := by
      intro x hx k linked
      rw [visited₁, hp] at hx
      rcases List.mem_append.mp hx with old | new
      · have before := explored x old k linked
        exact before.extend ⟨fun y hy => extends₁.reached (by rw [same]; exact hy), extends₁.odd⟩
      · obtain rfl := List.mem_singleton.mp new
        exact noted₁ k ((mem_linked_iff sound).mpr linked)
    obtain ⟨valid', explored', extends', empty⟩ := ih valid₁ explored₁
    refine ⟨valid', explored', ⟨?_, fun h => extends'.odd (extends₁.odd h)⟩, empty⟩
    intro y hy
    rw [← same] at hy
    exact extends'.reached (extends₁.reached hy)

end Wiring

end GraphSplice
