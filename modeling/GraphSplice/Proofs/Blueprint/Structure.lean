import GraphSplice.Proofs.Blueprint
import GraphSplice.Proofs.Ends
import Mathlib.Data.List.Perm.Subperm

/-!
The shape of the blueprints that batches have. A fresh socket has one link, a host link has its
sockets to itself, and an odd closed walk passes through a host socket.
-/

namespace GraphSplice

namespace Blueprint

variable {b : Blueprint}

theorem Linked.symm (s t : Socket) (h : b.Linked s t) : b.Linked t s := by
  obtain ⟨x, hx, joins⟩ := h
  exact ⟨x, hx, Ends.joins_comm.mp joins⟩

theorem beside_equivalence (b : Blueprint) : Equivalence b.Beside where
  refl s := ⟨0, Even.zero, rfl⟩
  symm := by
    rintro s t ⟨n, even, walk⟩
    exact ⟨n, even, walk.reverse Linked.symm⟩
  trans := by
    rintro s t u ⟨m, even, walk⟩ ⟨n, even', walk'⟩
    exact ⟨m + n, even.add even', walk.append walk'⟩

theorem meets_iff (balanced : ¬ b.Odd) {m n : NodeOrigin} :
    b.Meets m n ↔ ∃ s t, b.owner s = some m ∧ b.owner t = some n ∧ b.Beside s t := by
  unfold Meets
  have even : ∀ s t, AtEvenDistance b.Linked s t ↔ b.Beside s t := fun s t =>
    atEvenDistance_iff Linked.symm fun odd => balanced ⟨s, odd⟩
  simp only [even]

structure Proper (b : Blueprint) : Prop where
  distinct : ∀ x ∈ b.links, ∀ y ∈ b.links, x.origin = y.origin → x = y
  fresh : ∀ x ∈ b.links, ∀ side p side', x.ends.get side = .fresh p side' →
    x.origin = .created p ∧ side' = side
  host : ∀ x ∈ b.links, ∀ e, x.origin = .host e → x.ends = ⟨.host e .first, .host e .second⟩
  apart : ∀ x ∈ b.links, ∀ e, x.origin = .host e → ∀ y ∈ b.links, ∀ side side',
    y.ends.get side' = .host e side → y = x

namespace Proper

theorem eq_of_touches_fresh (proper : b.Proper) {x y : Strand} (hx : x ∈ b.links)
    (hy : y ∈ b.links) {p : Provenance} {side : Side} (touches : x.ends.Touches (.fresh p side))
    (touches' : y.ends.Touches (.fresh p side)) : x = y := by
  obtain ⟨i, same⟩ := Ends.touches_iff_get.mp touches
  obtain ⟨k, same'⟩ := Ends.touches_iff_get.mp touches'
  apply proper.distinct x hx y hy
  rw [(proper.fresh x hx i p side same).1, (proper.fresh y hy k p side same').1]

/-- A link between fresh sockets is a component of its own. -/
theorem not_onOddWalk_of_fresh (proper : b.Proper) {p q : Provenance} {i k : Side}
    (linked : b.Linked (.fresh p i) (.fresh q k)) : ¬ OnOddWalk b.Linked (.fresh p i) := by
  obtain ⟨x, hx, joins⟩ := linked
  have different : (Socket.fresh p i) ≠ .fresh q k := by
    intro same
    rw [← same] at joins
    have first : x.ends.get .first = .fresh p i := by rcases joins with h | h <;> rw [h] <;> rfl
    have second : x.ends.get .second = .fresh p i := by rcases joins with h | h <;> rw [h] <;> rfl
    have side := (proper.fresh x hx .first p i first).2
    rw [(proper.fresh x hx .second p i second).2] at side
    cases side
  apply not_onOddWalk_of_star (T := fun s => s = .fresh q k) ?_ ?_ different
  · rintro s ⟨y, hy, joins'⟩
    obtain rfl := proper.eq_of_touches_fresh hy hx joins'.touches.1 joins.touches.1
    rcases joins'.eq_of_touches joins.touches.2 with same | same
    · exact absurd same.symm different
    · exact same.symm
  · rintro s t rfl ⟨y, hy, joins'⟩
    obtain rfl := proper.eq_of_touches_fresh hy hx joins'.touches.1 joins.touches.2
    rcases joins'.eq_of_touches joins.touches.1 with same | same
    · exact absurd same different
    · exact same.symm

theorem eq_of_touches_host (proper : b.Proper) {x y : Strand} (hx : x ∈ b.links) (hy : y ∈ b.links)
    {e : EdgeId} (origin : x.origin = .host e) {side : Side}
    (touches : y.ends.Touches (.host e side)) : y = x := by
  obtain ⟨side', same⟩ := Ends.touches_iff_get.mp touches
  exact proper.apart x hx e origin y hy side side' same

/-- The link of a host edge is a component of its own. -/
theorem not_onOddWalk_of_hostLink (proper : b.Proper) {x : Strand} (hx : x ∈ b.links) {e : EdgeId}
    (origin : x.origin = .host e) (side : Side) : ¬ OnOddWalk b.Linked (.host e side) := by
  have across : ∀ side t, b.Linked (.host e side) t → t = .host e side.other := by
    rintro side t ⟨y, hy, joins⟩
    obtain rfl := proper.eq_of_touches_host hx hy origin joins.touches.1
    rw [proper.host y hx e origin] at joins
    rcases joins with same | same <;> cases same <;> rfl
  apply not_onOddWalk_of_star (T := fun s => s = .host e side.other) (across side)
  · rintro s t rfl linked
    rw [across _ t linked, Side.other_other]
  · intro same
    exact Side.other_ne side (Socket.host.inj same).2.symm

/-- Several links between two sockets are all created ones. -/
theorem isCreated_of_between (proper : b.Proper) (nodup : b.links.Nodup) {s t : Socket}
    (several : 2 ≤ (b.between s t).length) :
    ∀ x ∈ b.between s t, x.origin.isCreated = true := by
  intro x hx
  cases origin : x.origin with
  | created p => rfl
  | host e =>
    exfalso
    obtain ⟨inside, joins⟩ := List.mem_filter.mp hx
    have touches := (of_decide_eq_true joins).touches.1
    have own : ∃ side, s = .host e side := by
      obtain ⟨side, same⟩ := Ends.touches_iff_get.mp touches
      rw [proper.host x inside e origin] at same
      exact ⟨side, by rw [← same]; cases side <;> rfl⟩
    obtain ⟨side, rfl⟩ := own
    have only : ∀ y ∈ b.between (.host e side) t, y = x := by
      intro y hy
      obtain ⟨inside', joins'⟩ := List.mem_filter.mp hy
      exact proper.eq_of_touches_host inside inside' origin (of_decide_eq_true joins').touches.1
    have single : (b.between (.host e side) t).Subperm [x] := by
      apply List.subperm_of_subset (nodup.filter _)
      exact fun y hy => List.mem_singleton.mpr (only y hy)
    have count := single.length_le
    rw [List.length_singleton] at count
    omega

/-- Every odd component has a host socket. -/
theorem exists_host_of_onOddWalk (proper : b.Proper) {s : Socket} (odd : OnOddWalk b.Linked s) :
    ∃ e side, Connected b.Linked s (.host e side) ∧ OnOddWalk b.Linked (.host e side) := by
  cases s with
  | host e side => exact ⟨e, side, .refl _, odd⟩
  | fresh p i =>
    obtain ⟨t, linked⟩ : ∃ t, b.Linked (.fresh p i) t := by
      obtain ⟨n, parity, walk⟩ := id odd
      cases n with
      | zero => exact absurd Even.zero parity
      | succ n =>
        obtain ⟨t, -, linked⟩ := walk
        exact ⟨t, linked.symm⟩
    cases t with
    | host e side =>
      exact ⟨e, side, .single linked, odd.of_connected Linked.symm (.single linked)⟩
    | fresh q k => exact absurd odd (proper.not_onOddWalk_of_fresh linked)

/-- A link with a fresh end, or of a host edge, is the only one at some end other than `h`. -/
theorem not_onOddWalk_host (proper : b.Proper) (loose : ∀ x ∈ b.links, (∃ e, x.origin = .host e) ∨
    ∃ side p side', x.ends.get side = .fresh p side') (e : EdgeId) (side : Side) :
    ¬ OnOddWalk b.Linked (.host e side) := by
  apply not_onOddWalk_of_star
    (T := fun s => s ≠ .host e side ∧ ∀ t, b.Linked s t → t = .host e side)
  · rintro s ⟨x, hx, joins⟩
    -- all links at `s` are `x`, so they lead back
    have back : s ≠ .host e side → (∀ y ∈ b.links, y.ends.Touches s → y = x) →
        s ≠ .host e side ∧ ∀ t, b.Linked s t → t = .host e side := by
      intro different only
      refine ⟨different, ?_⟩
      rintro t ⟨y, hy, joins'⟩
      obtain rfl := only y hy joins'.touches.1
      rcases joins'.eq_of_touches joins.touches.1 with same | same
      · exact absurd same.symm different
      · exact same.symm
    rcases loose x hx with ⟨d, origin⟩ | ⟨i, p, k, fresh⟩
    · have ends := proper.host x hx d origin
      have only : ∀ k, ∀ y ∈ b.links, y.ends.Touches (.host d k) → y = x := by
        intro k y hy touches
        obtain ⟨i, same⟩ := Ends.touches_iff_get.mp touches
        exact proper.apart x hx d origin y hy k i same
      rw [ends] at joins
      rcases joins with same | same
      · cases same
        exact back (by simp) (only .second)
      · cases same
        exact back (by simp) (only .first)
    · have touches : x.ends.Touches (.fresh p k) := Ends.touches_iff_get.mpr ⟨i, fresh⟩
      rcases joins.eq_of_touches touches with same | same
      · cases same
      · subst same
        exact back (by simp) fun y hy touches' => proper.eq_of_touches_fresh hy hx touches' touches
  · exact fun s t star linked => star.2 t linked
  · exact fun star => star.1 rfl

/-- Where each link has a fresh end or is that of a host edge, no closed walk is odd. -/
theorem not_odd (proper : b.Proper) (loose : ∀ x ∈ b.links, (∃ e, x.origin = .host e) ∨
    ∃ side p side', x.ends.get side = .fresh p side') : ¬ b.Odd := by
  rintro ⟨s, odd⟩
  obtain ⟨e, side, -, odd'⟩ := proper.exists_host_of_onOddWalk odd
  exact proper.not_onOddWalk_host loose e side odd'

/-- A link with a fresh end, or that of a host edge, joins two sockets. -/
theorem ends_ne (proper : b.Proper) {x : Strand} (hx : x ∈ b.links)
    (loose : (∃ e, x.origin = .host e) ∨ ∃ side p side', x.ends.get side = .fresh p side') :
    x.ends.first ≠ x.ends.second := by
  intro same
  rcases loose with ⟨e, origin⟩ | ⟨side, p, side', fresh⟩
  · rw [proper.host x hx e origin] at same
    cases same
  · have both : ∀ k, x.ends.get k = .fresh p side' := by
      intro k
      rw [← fresh]
      cases k <;> cases side <;> simp [Ends.get, same]
    have first := (proper.fresh x hx .first p side' (both .first)).2
    rw [(proper.fresh x hx .second p side' (both .second)).2] at first
    cases first

/-- At one of its ends such a link is the only one. -/
theorem exists_tip (proper : b.Proper) {x : Strand} (hx : x ∈ b.links)
    (loose : (∃ e, x.origin = .host e) ∨ ∃ side p side', x.ends.get side = .fresh p side') :
    ∃ side, ∀ y ∈ b.links, y.ends.Touches (x.ends.get side) → y = x := by
  rcases loose with ⟨e, origin⟩ | ⟨side, p, side', fresh⟩
  · refine ⟨.first, ?_⟩
    intro y hy touches
    obtain ⟨k, at'⟩ := Ends.touches_iff_get.mp touches
    rw [proper.host x hx e origin] at at'
    exact proper.apart x hx e origin y hy .first k at'
  · refine ⟨side, ?_⟩
    intro y hy touches
    rw [fresh] at touches
    exact proper.eq_of_touches_fresh hy hx touches (Ends.touches_iff_get.mpr ⟨side, fresh⟩)

end Proper

/-! ## Refusals -/

theorem place_inj {e e' : EdgeId} {side side' : Side} (same : place e side = place e' side') :
    e = e' ∧ side = side' := by
  unfold place at same
  have slots : e.slot = e'.slot := by
    cases side <;> cases side' <;> simp only [Side.toNat] at same <;> omega
  refine ⟨Handle.ext_slot slots, ?_⟩
  cases side <;> cases side' <;> simp only [Side.toNat] at same <;> first | rfl | omega

theorem FirstOdd.odd {n : Nat} (h : b.FirstOdd n) : b.Odd := by
  obtain ⟨e, side, odd, -⟩ := h
  exact ⟨_, odd⟩

theorem FirstOdd.unique {m n : Nat} (h : b.FirstOdd m) (h' : b.FirstOdd n) : m = n := by
  obtain ⟨e, side, odd, first, sockets, nodup, count, component⟩ := h
  obtain ⟨e', side', odd', first', sockets', nodup', count', component'⟩ := h'
  obtain ⟨rfl, rfl⟩ := place_inj (Nat.le_antisymm (first e' side' odd') (first' e side odd))
  have perm : sockets.Perm sockets' := by
    apply (List.perm_ext_iff_of_nodup nodup nodup').mpr
    exact fun s => (component s).trans (component' s).symm
  rw [← count, ← count']
  exact perm.length_eq

theorem linked_of_between {s t : Socket} {n : Nat} (several : 2 ≤ n)
    (count : (b.between s t).length = n) : b.Linked s t := by
  obtain ⟨x, hx⟩ := List.exists_mem_of_length_pos (l := b.between s t) (by omega)
  obtain ⟨inside, joins⟩ := List.mem_filter.mp hx
  exact ⟨x, inside, of_decide_eq_true joins⟩

theorem FirstCrowded.unique {m n : Nat} (h : b.FirstCrowded m) (h' : b.FirstCrowded n) : m = n := by
  obtain ⟨e, side, crowded, first⟩ := h
  obtain ⟨e', side', crowded', first'⟩ := h'
  obtain ⟨rfl, rfl⟩ := place_inj
    (Nat.le_antisymm (first e' side' n crowded') (first' e side m crowded))
  obtain ⟨several, -, d, k, foremost, count⟩ := crowded
  obtain ⟨several', -, d', k', foremost', count'⟩ := crowded'
  -- both partners are one step away, so they are side by side
  have there := linked_of_between several count
  have there' := linked_of_between several' count'
  have beside : b.Beside (.host d k) (.host d' k') :=
    ⟨1 + 1, ⟨1, rfl⟩, (Walk.single (Linked.symm _ _ there)).append (Walk.single there')⟩
  have back := (beside_equivalence b).symm beside
  obtain ⟨rfl, rfl⟩ := place_inj
    (Nat.le_antisymm (foremost.2 d' k' beside) (foremost'.2 d k back))
  rw [← count, ← count']

/-- Where each link has a fresh end or is that of a host edge, no socket is crowded. -/
theorem Proper.not_crowded (proper : b.Proper) (nodup : b.links.Nodup)
    (loose : ∀ x ∈ b.links, (∃ e, x.origin = .host e) ∨
      ∃ side p side', x.ends.get side = .fresh p side') (e : EdgeId) (side : Side) (n : Nat) :
    ¬ b.Crowded e side n := by
  rintro ⟨several, -, e', side', -, rfl⟩
  obtain ⟨x, hx⟩ := List.exists_mem_of_length_pos (Nat.lt_of_lt_of_le Nat.zero_lt_two several)
  have created := proper.isCreated_of_between nodup several x hx
  obtain ⟨inside, joins⟩ := List.mem_filter.mp hx
  rcases loose x inside with ⟨d, origin⟩ | ⟨i, p, k, fresh⟩
  · rw [origin] at created
    cases created
  · have touches : x.ends.Touches (.fresh p k) := Ends.touches_iff_get.mpr ⟨i, fresh⟩
    rcases (of_decide_eq_true joins).eq_of_touches touches with same | same <;> cases same

theorem exists_firstCrowded_iff :
    (∃ n, b.FirstCrowded n) ↔ ∃ e side n, b.Crowded e side n := by
  constructor
  · rintro ⟨n, e, side, crowded, -⟩
    exact ⟨e, side, n, crowded⟩
  · rintro ⟨e, side, n, crowded⟩
    -- the least place with a crowded socket
    have reached : ∃ m e side n, b.Crowded e side n ∧ place e side = m :=
      ⟨_, e, side, n, crowded, rfl⟩
    classical
    obtain ⟨d, k, n', first, least⟩ := Nat.find_spec reached
    refine ⟨n', d, k, first, ?_⟩
    intro e' side' n'' later
    rw [least]
    exact Nat.find_min' reached ⟨e', side', n'', later, rfl⟩

end Blueprint

end GraphSplice
