import GraphSplice.Proofs.Graph.EdgeList
import Mathlib.Data.Set.Card
import Mathlib.Order.Interval.Set.Nat

/-!
Graphs in which every edge of another graph has become a path. The vertices inside the paths are
those that are new, and the edges of the paths are all edges there are. This fixes the numbers of
vertices and edges and all degrees, keeps a graph simple, and composes.
-/

namespace GraphSplice.Graph

variable {N E : Type} {g h k : Graph N E} {m n : Nat} {stop stop' : EdgeId → Nat → VertexId}
  {piece piece' : EdgeId → Nat → EdgeId} {d e : EdgeId} {v : VertexId} {x y : Ends VertexId}

theorem ncard_slots {kind : Kind} (s : Set Nat) :
    {x : Handle kind | x.slot ∈ s}.ncard = s.ncard := by
  have image : {x : Handle kind | x.slot ∈ s} = Handle.mk '' s := by
    ext ⟨i⟩
    simp
  rw [image, Set.ncard_image_of_injective s fun _ _ => Handle.mk.inj]

theorem ncard_edges (g : Graph N E) : {e : EdgeId | e.slot < g.size}.ncard = g.size :=
  (ncard_slots (Set.Iio g.size)).trans (Set.ncard_Iio_nat g.size)

/-! ## Simple graphs -/

/-- No loops and no parallel edges. -/
structure Simple (g : Graph N E) : Prop where
  loopless : ∀ e, g.isLoop e = false
  single : ∀ u v, (g.edgesBetween u v).length ≤ 1

namespace Simple

theorem ne_of_joins (simple : g.Simple) (found : g.ends? e = some x) {a b : VertexId}
    (joins : x.Joins a b) : a ≠ b := by
  obtain ⟨record, there, rfl⟩ := Option.map_eq_some_iff.mp found
  have straight := simple.loopless e
  rintro rfl
  rcases joins with same | same <;> simp [isLoop, there, same] at straight

theorem eq_of_joins (simple : g.Simple) (consistent : g.Consistent) (found : g.ends? d = some x)
    (found' : g.ends? e = some y) {a b : VertexId} (joins : x.Joins a b) (joins' : y.Joins a b) :
    d = e := by
  have between {d : EdgeId} {x : Ends VertexId} (found : g.ends? d = some x)
      (joins : x.Joins a b) : d ∈ g.edgesBetween a b :=
    (mem_edgesBetween_iff_ends consistent).mpr ⟨x, found, joins⟩
  have only := eq_singleton_of_mem (simple.single a b) (between found' joins')
  have member := between found joins
  rw [only] at member
  exact List.mem_singleton.mp member

theorem of_joins (consistent : g.Consistent)
    (apart : ∀ e x, g.ends? e = some x → x.first ≠ x.second)
    (unique : ∀ d e x y, g.ends? d = some x → g.ends? e = some y → x.Joins y.first y.second →
      d = e) : g.Simple where
  loopless e := by
    unfold isLoop
    cases found : g.edge? e with
    | none => rfl
    | some record => simpa using apart e record.ends (by simp [ends?, found])
  single u v := by
    have nodup : (g.edgesBetween u v).Nodup :=
      (edgesBetween_ascending consistent u v).imp fun less same =>
        Nat.ne_of_lt less (congrArg Handle.slot same)
    rw [← List.toFinset_card_of_nodup nodup, Finset.card_le_one]
    intro d hd e he
    rw [List.mem_toFinset, mem_edgesBetween_iff_ends consistent] at hd he
    obtain ⟨x, found, joins⟩ := hd
    obtain ⟨y, found', joins'⟩ := he
    exact unique d e x y found found' ((Ends.joins_congr joins').mpr joins)

/-- The same, read off the list of all ends. -/
theorem of_ends (consistent : g.Consistent) (apart : ∀ x ∈ g.ends, x.first ≠ x.second)
    (unique : g.ends.Pairwise fun x y => ¬ x.Joins y.first y.second) : g.Simple := by
  refine .of_joins consistent ?_ ?_
  · intro e x found
    rw [ends?_eq_getElem?] at found
    exact apart x (List.mem_of_getElem? found)
  · intro d e x y found found' joins
    rw [ends?_eq_getElem?] at found found'
    obtain ⟨inside, rfl⟩ := List.getElem?_eq_some_iff.mp found
    obtain ⟨inside', rfl⟩ := List.getElem?_eq_some_iff.mp found'
    have distinct := List.pairwise_iff_getElem.mp unique
    rcases Nat.lt_trichotomy d.slot e.slot with before | same | after
    · exact absurd joins (distinct _ _ inside inside' before)
    · exact Handle.ext_slot same
    · exact absurd joins.symm (distinct _ _ inside' inside after)

end Simple

/-! ## Subdivisions -/

/-- Every edge of `g` has become a path of `n` edges in `h`. The path of `e` leads from one end of
`e` to the other along the vertices `stop e i` and the edges `piece e i`. Each new vertex is inside
one path, at one place, and each edge of `h` is at one place of one path. -/
structure Subdivides (n : Nat) (g h : Graph N E) (stop : EdgeId → Nat → VertexId)
    (piece : EdgeId → Nat → EdgeId) : Prop where
  vertex : ∀ v, g.Contains v → h.vertex? v = g.vertex? v
  ends : ∀ e x, g.ends? e = some x → x.Joins (stop e 0) (stop e n)
  joins : ∀ e i, e.slot < g.size → i < n →
    ∃ y, h.ends? (piece e i) = some y ∧ y.Joins (stop e i) (stop e (i + 1))
  stops : Set.BijOn (fun x : EdgeId × Nat => stop x.1 x.2)
    ({e | e.slot < g.size} ×ˢ Set.Ioo 0 n) {v | h.Contains v ∧ ¬ g.Contains v}
  pieces : Set.BijOn (fun x : EdgeId × Nat => piece x.1 x.2)
    ({e | e.slot < g.size} ×ˢ Set.Iio n) {d | d.slot < h.size}

namespace Subdivides

/-- The vertex at which the path of one edge begins or ends. -/
def endOf (g : Graph N E) (e : EdgeId) (i : Nat) : VertexId :=
  (g.ends? e).elim .unused fun x => if i = 0 then x.first else x.second

/-- A graph subdivides itself into paths of one edge. -/
theorem self (g : Graph N E) : Subdivides 1 g g (endOf g) fun e _ => e where
  vertex _ _ := rfl
  ends e x found := by
    simp only [endOf, found]
    exact x.joins_self
  joins e i inside small := by
    obtain ⟨x, found⟩ := ends?_isSome_iff.mpr inside
    obtain rfl := Nat.lt_one_iff.mp small
    refine ⟨x, found, ?_⟩
    simp only [endOf, found]
    exact x.joins_self
  stops := by
    have noPlace : Set.Ioo 0 1 = (∅ : Set Nat) := Set.eq_empty_of_forall_notMem fun i hi =>
      Nat.lt_irrefl 0 (Nat.lt_of_lt_of_le hi.1 (Nat.le_of_lt_succ hi.2))
    have noVertex : {v | g.Contains v ∧ ¬ g.Contains v} = ∅ :=
      Set.eq_empty_of_forall_notMem fun v hv => hv.2 hv.1
    rw [noPlace, Set.prod_empty, noVertex]
    exact Set.bijOn_empty _
  pieces := by
    refine ⟨fun x hx => hx.1, ?_, fun e he => ⟨(e, 0), ⟨he, Nat.zero_lt_one⟩, rfl⟩⟩
    rintro ⟨e, i⟩ ⟨-, hi⟩ ⟨e', i'⟩ ⟨-, hi'⟩ same
    rw [Set.mem_Iio, Nat.lt_one_iff] at hi hi'
    dsimp only at hi hi' same
    rw [hi, hi', same]

section Places

variable (sub : Subdivides n g h stop piece) {i j : Nat} {e' : EdgeId}

include sub

theorem contains (inside : g.Contains v) : h.Contains v := by
  obtain ⟨record, found⟩ := contains_iff.mp inside
  exact contains_iff.mpr ⟨record, (sub.vertex v inside).trans found⟩

theorem piece_lt (he : e.slot < g.size) (hi : i < n) : (piece e i).slot < h.size :=
  sub.pieces.mapsTo (show (e, i) ∈ _ from ⟨he, hi⟩)

theorem piece_inj (he : e.slot < g.size) (hi : i < n) (he' : e'.slot < g.size) (hj : j < n)
    (same : piece e i = piece e' j) : e = e' ∧ i = j :=
  Prod.mk.inj (sub.pieces.injOn (show (e, i) ∈ _ from ⟨he, hi⟩) (show (e', j) ∈ _ from ⟨he', hj⟩)
    same)

theorem exists_piece (hd : d.slot < h.size) : ∃ e i, e.slot < g.size ∧ i < n ∧ piece e i = d := by
  obtain ⟨⟨e, i⟩, ⟨he, hi⟩, same⟩ := sub.pieces.surjOn hd
  exact ⟨e, i, he, hi, same⟩

/-- The vertices inside the paths are new. -/
theorem stop_new (he : e.slot < g.size) (first : 0 < i) (last : i < n) :
    h.Contains (stop e i) ∧ ¬ g.Contains (stop e i) :=
  sub.stops.mapsTo (show (e, i) ∈ _ from ⟨he, first, last⟩)

theorem stop_inj (he : e.slot < g.size) (first : 0 < i) (last : i < n) (he' : e'.slot < g.size)
    (first' : 0 < j) (last' : j < n) (same : stop e i = stop e' j) : e = e' ∧ i = j :=
  Prod.mk.inj (sub.stops.injOn (show (e, i) ∈ _ from ⟨he, first, last⟩)
    (show (e', j) ∈ _ from ⟨he', first', last'⟩) same)

theorem stop_ends (consistent : g.Consistent) (he : e.slot < g.size) :
    g.Contains (stop e 0) ∧ g.Contains (stop e n) := by
  obtain ⟨x, found⟩ := ends?_isSome_iff.mpr he
  obtain ⟨record, there, rfl⟩ := Option.map_eq_some_iff.mp found
  obtain ⟨first, second⟩ := consistent.ends e record there
  rcases sub.ends e _ found with same | same
  · rw [same] at first second
    exact ⟨first, second⟩
  · rw [same] at first second
    exact ⟨second, first⟩

/-- A path passes old vertices only at its ends. -/
theorem eq_end_of_contains (he : e.slot < g.size) (hi : i ≤ n) (old : g.Contains (stop e i)) :
    i = 0 ∨ i = n := by
  by_contra inside
  exact (sub.stop_new he (by omega) (by omega)).2 old

/-- A vertex inside a path is nowhere else on a path. -/
theorem eq_of_stop_eq (consistent : g.Consistent) (he : e.slot < g.size) (first : 0 < i)
    (last : i < n) (he' : e'.slot < g.size) (hj : j ≤ n) (same : stop e i = stop e' j) :
    e = e' ∧ i = j := by
  have new := (sub.stop_new he first last).2
  have ends := sub.stop_ends consistent he'
  rw [same] at new
  have inside : 0 < j ∧ j < n := by
    constructor
    · rcases Nat.eq_zero_or_pos j with rfl | positive
      · exact absurd ends.1 new
      · exact positive
    · rcases Nat.lt_or_eq_of_le hj with before | rfl
      · exact before
      · exact absurd ends.2 new
  exact sub.stop_inj he first last he' inside.1 inside.2 same

/-- The stops of a path are distinct. -/
theorem stop_injOn (consistent : g.Consistent) (simple : g.Simple) (he : e.slot < g.size) :
    Set.InjOn (stop e) {i | i ≤ n} := by
  obtain ⟨x, found⟩ := ends?_isSome_iff.mpr he
  have apart := simple.ne_of_joins found (sub.ends e x found)
  intro i hi j hj same
  rw [Set.mem_ofPred_eq] at hi hj
  by_cases inside : 0 < i ∧ i < n
  · exact (sub.eq_of_stop_eq consistent he inside.1 inside.2 he hj same).2
  by_cases inside' : 0 < j ∧ j < n
  · exact (sub.eq_of_stop_eq consistent he inside'.1 inside'.2 he hi same.symm).2.symm
  have atEnds : (i = 0 ∨ i = n) ∧ (j = 0 ∨ j = n) := by omega
  rcases atEnds with ⟨rfl | rfl, rfl | rfl⟩
  · rfl
  · exact absurd same apart
  · exact absurd same.symm apart
  · rfl

/-! ## What subdivision keeps -/

theorem simple_of_simple (consistent : g.Consistent) (consistent' : h.Consistent)
    (simple : g.Simple) : h.Simple := by
  have apart {e : EdgeId} {i j : Nat} (he : e.slot < g.size) (hi : i ≤ n) (hj : j ≤ n)
      (different : i ≠ j) : stop e i ≠ stop e j :=
    fun same => different (sub.stop_injOn consistent simple he hi hj same)
  have piece_ends {d : EdgeId} {y : Ends VertexId} (found : h.ends? d = some y) :
      ∃ e i, e.slot < g.size ∧ i < n ∧ piece e i = d ∧ y.Joins (stop e i) (stop e (i + 1)) := by
    obtain ⟨e, i, he, hi, rfl⟩ := sub.exists_piece (ends?_isSome_iff.mp ⟨y, found⟩)
    obtain ⟨y', found', joins⟩ := sub.joins e i he hi
    cases found.symm.trans found'
    exact ⟨e, i, he, hi, rfl, joins⟩
  refine .of_joins consistent' ?_ ?_
  · intro d y found same
    obtain ⟨e, i, he, hi, rfl, joins⟩ := piece_ends found
    have different := apart he hi.le hi (Nat.ne_of_lt (Nat.lt_succ_self i))
    rcases joins.unique y.joins_self with ⟨first, second⟩ | ⟨first, second⟩
    · exact different (by rw [← first, ← second, same])
    · exact different (by rw [← first, ← second, same])
  · intro d d' y y' found found' parallel
    obtain ⟨e, i, he, hi, rfl, joins⟩ := piece_ends found
    obtain ⟨e', j, he', hj, rfl, joins'⟩ := piece_ends found'
    have joined := (Ends.joins_congr joins').mp parallel
    by_cases single : n = 1
    · subst single
      obtain rfl := Nat.lt_one_iff.mp hi
      obtain rfl := Nat.lt_one_iff.mp hj
      obtain ⟨x, there⟩ := ends?_isSome_iff.mpr he
      obtain ⟨x', there'⟩ := ends?_isSome_iff.mpr he'
      rw [simple.eq_of_joins consistent there there' (sub.ends e x there)
        (joined.of_parallel joins (sub.ends e' x' there'))]
    -- A piece of a longer path has an inner stop, which tells the path and the place on it.
    have inner : 0 < i ∨ i + 1 < n := by omega
    rcases joins.unique joined with ⟨first, second⟩ | ⟨first, second⟩ <;> rcases inner with le | le
    · obtain ⟨rfl, rfl⟩ := sub.eq_of_stop_eq consistent he le hi he' hj.le first.symm
      rfl
    · obtain ⟨rfl, same⟩ := sub.eq_of_stop_eq consistent he (Nat.succ_pos i) le he' hj second.symm
      rw [Nat.succ_injective same]
    · obtain ⟨rfl, rfl⟩ := sub.eq_of_stop_eq consistent he le hi he' hj second.symm
      exact absurd first (apart he hj.le hi (by omega))
    · obtain ⟨rfl, rfl⟩ :=
        sub.eq_of_stop_eq consistent he (Nat.succ_pos i) le he' hj.le first.symm
      exact absurd second (apart he hj hi.le (by omega))

theorem mem_incident_iff_piece (consistent' : h.Consistent) :
    d ∈ h.incident v ↔
      ∃ e i, e.slot < g.size ∧ i < n ∧ piece e i = d ∧ (v = stop e i ∨ v = stop e (i + 1)) := by
  rw [mem_incident_iff_ends consistent']
  constructor
  · rintro ⟨y, found, touches⟩
    obtain ⟨e, i, he, hi, rfl⟩ := sub.exists_piece (ends?_isSome_iff.mp ⟨y, found⟩)
    obtain ⟨y', found', joins⟩ := sub.joins e i he hi
    cases found.symm.trans found'
    exact ⟨e, i, he, hi, rfl, joins.eq_of_touches touches⟩
  · rintro ⟨e, i, he, hi, rfl, place⟩
    obtain ⟨y, found, joins⟩ := sub.joins e i he hi
    refine ⟨y, found, ?_⟩
    rcases place with rfl | rfl
    · exact joins.touches.1
    · exact joins.touches.2

theorem mem_incident_iff_stop (consistent : g.Consistent) :
    e ∈ g.incident v ↔ e.slot < g.size ∧ (v = stop e 0 ∨ v = stop e n) := by
  rw [mem_incident_iff_ends consistent]
  constructor
  · rintro ⟨x, found, touches⟩
    exact ⟨ends?_isSome_iff.mp ⟨x, found⟩, (sub.ends e x found).eq_of_touches touches⟩
  · rintro ⟨he, place⟩
    obtain ⟨x, found⟩ := ends?_isSome_iff.mpr he
    obtain ⟨first, last⟩ := (sub.ends e x found).touches
    refine ⟨x, found, ?_⟩
    rcases place with rfl | rfl
    · exact first
    · exact last

/-- At an old vertex the first or the last edge of a path stands for the whole. -/
theorem perm_incident (positive : 0 < n) (consistent : g.Consistent) (consistent' : h.Consistent)
    (simple : g.Simple) (old : g.Contains v) : (h.incident v).Perm ((g.incident v).map fun e =>
      if v = stop e 0 then piece e 0 else piece e (n - 1)) := by
  have apart {e : EdgeId} (he : e.slot < g.size) : stop e n ≠ stop e 0 := fun same =>
    positive.ne' (sub.stop_injOn consistent simple he (Nat.le_refl n) (Nat.zero_le n) same)
  refine (List.perm_ext_iff_of_nodup (nodup_incident consistent' v) ?_).mpr fun d => ?_
  · refine (nodup_incident consistent v).map_on fun e he e' he' same => ?_
    have known := ((sub.mem_incident_iff_stop consistent).mp he).1
    have known' := ((sub.mem_incident_iff_stop consistent).mp he').1
    split at same <;> split at same <;>
      exact (sub.piece_inj known (by omega) known' (by omega) same).1
  · simp only [sub.mem_incident_iff_piece consistent', List.mem_map,
      sub.mem_incident_iff_stop consistent]
    constructor
    · rintro ⟨e, i, he, hi, rfl, rfl | rfl⟩
      · obtain rfl | rfl := sub.eq_end_of_contains he hi.le old
        · exact ⟨e, ⟨he, .inl rfl⟩, if_pos rfl⟩
        · exact absurd hi (lt_irrefl _)
      · obtain none | rfl := sub.eq_end_of_contains he hi old
        · cases none
        · exact ⟨e, ⟨he, .inr rfl⟩, if_neg (apart he)⟩
    · rintro ⟨e, ⟨he, rfl | rfl⟩, rfl⟩
      · exact ⟨e, 0, he, positive, (if_pos rfl).symm, .inl rfl⟩
      · refine ⟨e, n - 1, he, by omega, (if_neg (apart he)).symm, .inr ?_⟩
        rw [Nat.sub_add_cancel positive]

/-- Old vertices keep their degrees. -/
theorem degree_old (positive : 0 < n) (consistent : g.Consistent) (consistent' : h.Consistent)
    (simple : g.Simple) (old : g.Contains v) : h.degree v = g.degree v := by
  have simple' := sub.simple_of_simple consistent consistent' simple
  rw [degree_eq_length simple.loopless, degree_eq_length simple'.loopless,
    (sub.perm_incident positive consistent consistent' simple old).length_eq, List.length_map]

/-- A vertex inside a path has two neighbours on it. -/
theorem degree_new (consistent : g.Consistent) (consistent' : h.Consistent) (simple : g.Simple)
    (inside : h.Contains v) (new : ¬ g.Contains v) : h.degree v = 2 := by
  obtain ⟨⟨e, i⟩, ⟨he, first, last⟩, rfl⟩ := sub.stops.surjOn (show v ∈ _ from ⟨inside, new⟩)
  dsimp only at he first last ⊢
  have pieces : (h.incident (stop e i)).Perm [piece e (i - 1), piece e i] := by
    refine (List.perm_ext_iff_of_nodup (nodup_incident consistent' _) ?_).mpr fun d => ?_
    · refine List.nodup_cons.mpr ⟨fun member => ?_, List.nodup_singleton _⟩
      have same := sub.piece_inj he (by omega) he last (List.mem_singleton.mp member)
      omega
    · rw [sub.mem_incident_iff_piece consistent', List.mem_cons, List.mem_singleton]
      constructor
      · rintro ⟨e', j, he', hj, rfl, place | place⟩
        · obtain ⟨rfl, rfl⟩ := sub.eq_of_stop_eq consistent he first last he' hj.le place
          exact .inr rfl
        · obtain ⟨rfl, rfl⟩ := sub.eq_of_stop_eq consistent he first last he' hj place
          exact .inl rfl
      · rintro (rfl | rfl)
        · refine ⟨e, i - 1, he, by omega, rfl, .inr ?_⟩
          rw [Nat.sub_add_cancel first]
        · exact ⟨e, i, he, last, rfl, .inl rfl⟩
  have simple' := sub.simple_of_simple consistent consistent' simple
  rw [degree_eq_length simple'.loopless, pieces.length_eq]
  rfl

theorem size_eq : h.size = g.size * n := by
  have same := sub.pieces.ncard_eq
  rw [Set.ncard_prod, ncard_edges, ncard_edges, Set.ncard_Iio_nat] at same
  exact same.symm

theorem order_eq : h.order = g.order + g.size * (n - 1) := by
  have fewer : g.order ≤ h.order := by
    by_contra more
    exact Nat.lt_irrefl _ (sub.contains (v := ⟨h.order⟩) (Nat.lt_of_not_le more))
  have new : {v : VertexId | h.Contains v ∧ ¬ g.Contains v} =
      {v | v.slot ∈ Set.Ico g.order h.order} := by
    ext v
    exact (and_congr_right fun _ => Nat.not_lt).trans and_comm
  have same := sub.stops.ncard_eq
  rw [new, Set.ncard_prod, ncard_edges, ncard_slots, Set.ncard_Ioo_nat, Set.ncard_Ico_nat,
    Nat.sub_zero] at same
  omega

end Places

/-! ## Composition -/

theorem bijOn_reversed (s : Set EdgeId) (back : EdgeId → Prop) [DecidablePred back] {t : Set Nat}
    {f : Nat → Nat} (inside : Set.MapsTo f t t) (involutive : ∀ i ∈ t, f (f i) = i) :
    Set.BijOn (fun x : EdgeId × Nat => (x.1, if back x.1 then f x.2 else x.2)) (s ×ˢ t)
      (s ×ˢ t) := by
  have twice : Set.LeftInvOn (fun x : EdgeId × Nat => (x.1, if back x.1 then f x.2 else x.2))
      (fun x => (x.1, if back x.1 then f x.2 else x.2)) (s ×ˢ t) := by
    rintro ⟨e, i⟩ ⟨-, hi⟩
    by_cases reversed : back e
    · simp [reversed, involutive i hi]
    · simp [reversed]
  have maps : Set.MapsTo (fun x : EdgeId × Nat => (x.1, if back x.1 then f x.2 else x.2))
      (s ×ˢ t) (s ×ˢ t) := by
    rintro ⟨e, i⟩ ⟨he, hi⟩
    refine ⟨he, ?_⟩
    dsimp only
    split
    · exact inside hi
    · exact hi
  exact Set.InvOn.bijOn ⟨twice, twice⟩ maps maps

/-- Some of the paths may be read backwards. -/
theorem turn (sub : Subdivides n g h stop piece) (back : EdgeId → Prop) [DecidablePred back] :
    Subdivides n g h (fun e i => stop e (if back e then n - i else i))
      fun e i => piece e (if back e then n - 1 - i else i) where
  vertex := sub.vertex
  ends e x found := by
    split
    · rw [Nat.sub_zero, Nat.sub_self]
      exact Ends.joins_comm.mp (sub.ends e x found)
    · exact sub.ends e x found
  joins e i he hi := by
    split
    · obtain ⟨y, found, joins⟩ := sub.joins e (n - 1 - i) he (by omega)
      refine ⟨y, found, ?_⟩
      rw [show n - 1 - i + 1 = n - i by omega] at joins
      rw [show n - (i + 1) = n - 1 - i by omega]
      exact Ends.joins_comm.mp joins
    · exact sub.joins e i he hi
  stops := by
    refine sub.stops.comp (bijOn_reversed _ back (f := (n - ·)) ?_ ?_)
    · rintro i ⟨first, last⟩
      exact ⟨Nat.sub_pos_of_lt last, Nat.sub_lt (first.trans last) first⟩
    · rintro i ⟨-, last⟩
      exact Nat.sub_sub_self last.le
  pieces := by
    refine sub.pieces.comp (bijOn_reversed _ back (f := (n - 1 - ·)) ?_ ?_)
    · intro i hi
      exact Nat.sub_one_sub_lt_of_lt hi
    · intro i hi
      rw [Set.mem_Iio] at hi
      exact Nat.sub_sub_self (Nat.le_sub_one_of_lt hi)

theorem place_div_mod {i j : Nat} (hj : j < n) : (i * n + j) / n = i ∧ (i * n + j) % n = j := by
  have positive : 0 < n := Nat.zero_lt_of_lt hj
  constructor
  · rw [Nat.mul_comm, Nat.mul_add_div positive, Nat.div_eq_of_lt hj, Nat.add_zero]
  · rw [Nat.mul_comm, Nat.mul_add_mod, Nat.mod_eq_of_lt hj]

theorem place_lt {i j : Nat} (hi : i < m) (hj : j < n) : i * n + j < m * n :=
  calc i * n + j < i * n + n := Nat.add_lt_add_left hj _
    _ = (i + 1) * n := (Nat.succ_mul i n).symm
    _ ≤ m * n := Nat.mul_le_mul_right n hi

/-- The stops of a path that leads through the paths of the edges on a path. -/
def innerStop (n : Nat) (stop stop' : EdgeId → Nat → VertexId) (piece : EdgeId → Nat → EdgeId)
    (e : EdgeId) (i : Nat) : VertexId :=
  if i % n = 0 then stop e (i / n) else stop' (piece e (i / n)) (i % n)

section Trans

variable (first : Subdivides m g h stop piece) (positive : 0 < n)

include first positive

/-- A stop of an outer path, or inside the path of one of its edges. -/
theorem innerStop_cases {e : EdgeId} {i : Nat} (he : e.slot < g.size) (low : 0 < i)
    (high : i < m * n) :
    (i % n = 0 ∧ innerStop n stop stop' piece e i = stop e (i / n) ∧ 0 < i / n ∧ i / n < m) ∨
      (innerStop n stop stop' piece e i = stop' (piece e (i / n)) (i % n) ∧
        (piece e (i / n)).slot < h.size ∧ 0 < i % n ∧ i % n < n) := by
  have outer : i / n < m := (Nat.div_lt_iff_lt_mul positive).mpr high
  by_cases zero : i % n = 0
  · have some := Nat.div_pos (Nat.le_of_dvd low (Nat.dvd_of_mod_eq_zero zero)) positive
    exact .inl ⟨zero, if_pos zero, some, outer⟩
  · exact .inr ⟨if_neg zero, first.piece_lt he outer, Nat.pos_of_ne_zero zero,
      Nat.mod_lt i positive⟩

variable (second : Subdivides n h k stop' piece')

include second

theorem bijOn_inner_pieces :
    Set.BijOn (fun x : EdgeId × Nat => piece' (piece x.1 (x.2 / n)) (x.2 % n))
      ({e | e.slot < g.size} ×ˢ Set.Iio (m * n)) {d | d.slot < k.size} := by
  have outer {i : Nat} (hi : i < m * n) : i / n < m := (Nat.div_lt_iff_lt_mul positive).mpr hi
  refine ⟨?_, ?_, ?_⟩
  · rintro ⟨e, i⟩ ⟨he, hi⟩
    exact second.piece_lt (first.piece_lt he (outer hi)) (Nat.mod_lt i positive)
  · rintro ⟨e, i⟩ ⟨he, hi⟩ ⟨e', j⟩ ⟨he', hj⟩ same
    obtain ⟨same, modulo⟩ := second.piece_inj (first.piece_lt he (outer hi))
      (Nat.mod_lt i positive) (first.piece_lt he' (outer hj)) (Nat.mod_lt j positive) same
    obtain ⟨rfl, quotient⟩ := first.piece_inj he (outer hi) he' (outer hj) same
    dsimp only at quotient modulo
    rw [← Nat.div_add_mod' i n, quotient, modulo, Nat.div_add_mod']
  · intro d hd
    obtain ⟨d, j, inside, hj, rfl⟩ := second.exists_piece hd
    obtain ⟨e, i, he, hi, rfl⟩ := first.exists_piece inside
    obtain ⟨quotient, modulo⟩ := place_div_mod (i := i) hj
    refine ⟨(e, i * n + j), ⟨he, place_lt hi hj⟩, ?_⟩
    dsimp only
    rw [quotient, modulo]

/-- The stop tells whether it is one of an outer path, and either way the path and the place. -/
theorem innerStop_inj {e e' : EdgeId} {i j : Nat} (he : e.slot < g.size) (low : 0 < i)
    (high : i < m * n) (he' : e'.slot < g.size) (low' : 0 < j) (high' : j < m * n)
    (equal : innerStop n stop stop' piece e i = innerStop n stop stop' piece e' j) :
    e = e' ∧ i = j := by
  have digits : e = e' ∧ i / n = j / n ∧ i % n = j % n := by
    rcases innerStop_cases first positive he low high with
      ⟨zero, same, some, below⟩ | ⟨same, inside, some, below⟩ <;>
    rcases innerStop_cases first positive he' low' high' with
      ⟨zero', same', some', below'⟩ | ⟨same', inside', some', below'⟩ <;>
    rw [same, same'] at equal
    · obtain ⟨sameEdge, quotient⟩ := first.stop_inj he some below he' some' below' equal
      exact ⟨sameEdge, quotient, zero.trans zero'.symm⟩
    · have old := (first.stop_new he some below).1
      rw [equal] at old
      exact absurd old (second.stop_new inside' some' below').2
    · have old := (first.stop_new he' some' below').1
      rw [← equal] at old
      exact absurd old (second.stop_new inside some below).2
    · obtain ⟨samePiece, modulo⟩ := second.stop_inj inside some below inside' some' below' equal
      obtain ⟨sameEdge, quotient⟩ := first.piece_inj he ((Nat.div_lt_iff_lt_mul positive).mpr high)
        he' ((Nat.div_lt_iff_lt_mul positive).mpr high') samePiece
      exact ⟨sameEdge, quotient, modulo⟩
  obtain ⟨sameEdge, quotient, modulo⟩ := digits
  refine ⟨sameEdge, ?_⟩
  rw [← Nat.div_add_mod' i n, quotient, modulo, Nat.div_add_mod']

theorem bijOn_inner_stops :
    Set.BijOn (fun x : EdgeId × Nat => innerStop n stop stop' piece x.1 x.2)
      ({e | e.slot < g.size} ×ˢ Set.Ioo 0 (m * n)) {v | k.Contains v ∧ ¬ g.Contains v} := by
  refine ⟨?_, ?_, ?_⟩
  · rintro ⟨e, i⟩ ⟨he, low, high⟩
    dsimp only
    rcases innerStop_cases first positive he low high with
      ⟨-, same, some, below⟩ | ⟨same, inside, some, below⟩
    · obtain ⟨inside, new⟩ := first.stop_new he some below
      rw [same]
      exact ⟨second.contains inside, new⟩
    · obtain ⟨inside, new⟩ := second.stop_new inside some below
      rw [same]
      exact ⟨inside, fun old => new (first.contains old)⟩
  · rintro ⟨e, i⟩ ⟨he, low, high⟩ ⟨e', j⟩ ⟨he', low', high'⟩ equal
    obtain ⟨rfl, rfl⟩ : e = e' ∧ i = j :=
      innerStop_inj first positive second he low high he' low' high' equal
    rfl
  · rintro v ⟨inside, new⟩
    by_cases middle : h.Contains v
    · obtain ⟨⟨e, i⟩, ⟨he, low, high⟩, rfl⟩ := first.stops.surjOn ⟨middle, new⟩
      refine ⟨(e, i * n), ⟨he, Nat.mul_pos low positive,
        Nat.mul_lt_mul_of_pos_right high positive⟩, ?_⟩
      dsimp only [innerStop]
      rw [if_pos (Nat.mul_mod_left i n), Nat.mul_div_cancel i positive]
    · obtain ⟨⟨d, j⟩, ⟨hd, low, high⟩, rfl⟩ := second.stops.surjOn ⟨inside, middle⟩
      obtain ⟨e, i, he, hi, rfl⟩ := first.exists_piece hd
      obtain ⟨quotient, modulo⟩ := place_div_mod (i := i) high
      refine ⟨(e, i * n + j), ⟨he, Nat.add_pos_right _ low, place_lt hi high⟩, ?_⟩
      dsimp only [innerStop]
      rw [modulo, if_neg (Nat.ne_of_gt low), quotient]

/-- Where the inner paths are read in the direction of the outer ones, they make up one path. -/
theorem trans (aligned : ∀ e i, e.slot < g.size → i < m →
      stop' (piece e i) 0 = stop e i ∧ stop' (piece e i) n = stop e (i + 1)) :
    Subdivides (m * n) g k (innerStop n stop stop' piece)
      fun e i => piece' (piece e (i / n)) (i % n) := by
  have at_place {e : EdgeId} {i j : Nat} (he : e.slot < g.size) (hi : i < m) (hj : j ≤ n) :
      innerStop n stop stop' piece e (i * n + j) = stop' (piece e i) j := by
    obtain ⟨start, finish⟩ := aligned e i he hi
    rcases Nat.lt_or_eq_of_le hj with below | rfl
    · obtain ⟨quotient, modulo⟩ := place_div_mod (i := i) below
      unfold innerStop
      rw [quotient, modulo]
      split
      · next zero => rw [zero, start]
      · rfl
    · have next : i * j + j = (i + 1) * j := (Nat.succ_mul i j).symm
      unfold innerStop
      rw [next, if_pos (Nat.mul_mod_left _ j), Nat.mul_div_cancel _ positive, finish]
  constructor
  case vertex =>
    exact fun v old => (second.vertex v (first.contains old)).trans (first.vertex v old)
  case ends =>
    intro e x found
    unfold innerStop
    rw [if_pos (Nat.zero_mod n), if_pos (Nat.mul_mod_left m n), Nat.zero_div,
      Nat.mul_div_cancel m positive]
    exact first.ends e x found
  case joins =>
    intro e i he hi
    have outer : i / n < m := (Nat.div_lt_iff_lt_mul positive).mpr hi
    have below := Nat.mod_lt i positive
    have here := at_place he outer below.le
    have there := at_place he outer (Nat.succ_le_of_lt below)
    rw [← Nat.add_one, ← Nat.add_assoc] at there
    rw [Nat.div_add_mod'] at here there
    rw [here, there]
    exact second.joins _ _ (first.piece_lt he outer) below
  case stops => exact bijOn_inner_stops first positive second
  case pieces => exact bijOn_inner_pieces first positive second

end Trans

/-- A subdivision of a subdivision is one. -/
theorem exists_trans (first : Subdivides m g h stop piece) (second : Subdivides n h k stop' piece')
    (positive : 0 < n) : ∃ stop piece, Subdivides (m * n) g k stop piece := by
  classical
  let back (d : EdgeId) : Prop :=
    ∃ e i, e.slot < g.size ∧ i < m ∧ piece e i = d ∧ stop' d 0 ≠ stop e i
  have back_iff {e : EdgeId} {i : Nat} (he : e.slot < g.size) (hi : i < m) :
      back (piece e i) ↔ stop' (piece e i) 0 ≠ stop e i := by
    constructor
    · rintro ⟨e', j, he', hj, same, different⟩
      obtain ⟨rfl, rfl⟩ := first.piece_inj he' hj he hi same
      exact different
    · exact fun different => ⟨e, i, he, hi, rfl, different⟩
  refine ⟨_, _, first.trans positive (second.turn back) fun e i he hi => ?_⟩
  obtain ⟨y, found, joins⟩ := first.joins e i he hi
  have ends := joins.unique (second.ends (piece e i) y found)
  by_cases same : stop' (piece e i) 0 = stop e i
  · have forth : ¬ back (piece e i) := fun turned => (back_iff he hi).mp turned same
    simp only [forth, if_false]
    refine ⟨same, ?_⟩
    rcases ends with ⟨-, last⟩ | ⟨start, last⟩
    · exact last
    · exact last.trans (same.symm.trans start)
  · have turned : back (piece e i) := (back_iff he hi).mpr same
    simp only [turned, if_true, Nat.sub_zero, Nat.sub_self]
    rcases ends with ⟨start, -⟩ | ⟨start, last⟩
    · exact absurd start same
    · exact ⟨last, start⟩

end Subdivides

end GraphSplice.Graph
