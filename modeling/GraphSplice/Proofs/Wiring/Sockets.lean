import GraphSplice.Proofs.Wiring.Classes
import GraphSplice.Proofs.Wiring.Partition

/-!
Merging the sockets. A component is odd exactly when it has a closed walk of odd length, and the
first one found is the one with the lowest socket. Without odd components every socket is merged
into the lowest one at even distance.
-/

namespace GraphSplice

/-- The map sends everything to the least thing related to it. -/
structure Least (R : Nat → Nat → Prop) (q : Nat → Nat) : Prop where
  related : ∀ j, R j (q j)
  least : ∀ j k, R j k → q j ≤ k

namespace Least

variable {R : Nat → Nat → Prop} {q : Nat → Nat}

theorem le (h : Least R q) (equivalence : Equivalence R) (j : Nat) : q j ≤ j :=
  h.least j j (equivalence.refl j)

theorem eq_iff (h : Least R q) (equivalence : Equivalence R) {j k : Nat} : q j = q k ↔ R j k := by
  constructor
  · intro same
    have there := h.related j
    rw [same] at there
    exact equivalence.trans there (equivalence.symm (h.related k))
  · intro related
    have below := h.least j (q k) (equivalence.trans related (h.related k))
    have above := h.least k (q j) (equivalence.trans (equivalence.symm related) (h.related j))
    omega

theorem idem (h : Least R q) (equivalence : Equivalence R) (j : Nat) : q (q j) = q j :=
  (h.eq_iff equivalence).mpr (equivalence.symm (h.related j))

end Least

namespace Wiring

variable {w : Wiring}

/-- Some walk of even length along links joins the two sockets. -/
def Beside (w : Wiring) (j k : Nat) : Prop := ∃ n, Even n ∧ Walk w.LinkedTo n j k

theorem beside_equivalence (w : Wiring) : Equivalence w.Beside where
  refl j := ⟨0, Even.zero, rfl⟩
  symm := by
    rintro j k ⟨n, even, walk⟩
    exact ⟨n, even, walk.reverse LinkedTo.symm⟩
  trans := by
    rintro j k l ⟨m, even, walk⟩ ⟨n, even', walk'⟩
    exact ⟨m + n, even.add even', walk.append walk'⟩

theorem links_ne_nil_of_walk (sound : w.Sound) {n : Nat} {j k : JointId}
    (walk : Walk w.LinkedTo (n + 1) j k) : w.links j ≠ [] := by
  obtain ⟨before, -, last⟩ := walk.reverse LinkedTo.symm
  exact last.links_ne_nil sound

namespace IsComponent

variable {start : Nat} {c : Component}

theorem mem_of_walk (component : w.IsComponent start c) {n : Nat} {j k : JointId} {side : Side}
    (hj : (j, side) ∈ c.sockets) (walk : Walk w.LinkedTo n j k) :
    ∃ other, (k, other) ∈ c.sockets := by
  refine Walk.mem_of_closed (S := fun i => ∃ other, (i, other) ∈ c.sockets) ?_ walk ⟨side, hj⟩
  rintro a b ⟨other, ha⟩ linked
  obtain ⟨other', hb, -⟩ := component.closed _ ha b linked
  exact ⟨other', hb⟩

theorem mem_iff (component : w.IsComponent start c) {j : JointId} :
    (∃ side, (j, side) ∈ c.sockets) ↔ Connected w.LinkedTo start j := by
  constructor
  · rintro ⟨side, mem⟩
    obtain ⟨n, walk, -⟩ := component.walk _ mem
    exact ⟨n, walk⟩
  · rintro ⟨n, walk⟩
    exact component.mem_of_walk component.begins walk

theorem side_unique (component : w.IsComponent start c) {j : JointId} {s t : Side}
    (hs : (j, s) ∈ c.sockets) (ht : (j, t) ∈ c.sockets) : s = t := by
  have same := List.inj_on_of_nodup_map component.nodup hs ht rfl
  exact congrArg Prod.snd same

/-- In a component that is not odd every walk exchanges the sides step by step. -/
theorem side_of_walk (component : w.IsComponent start c) (balanced : c.odd = false) {n : Nat}
    {j k : JointId} {s t : Side} (hj : (j, s) ∈ c.sockets) (hk : (k, t) ∈ c.sockets)
    (walk : Walk w.LinkedTo n j k) : Even n ↔ s = t := by
  induction n generalizing k t with
  | zero =>
    obtain rfl := Walk.zero_iff.mp walk
    simp [component.side_unique hj hk]
  | succ n ih =>
    obtain ⟨i, before, last⟩ := walk
    obtain ⟨r, hi⟩ := component.mem_of_walk hj before
    obtain ⟨other, mem, same⟩ := component.closed _ hi k last
    have different : other ≠ r := by
      intro h
      rw [same h] at balanced
      cases balanced
    rw [Nat.even_add_one, ih hi before]
    obtain rfl := component.side_unique hk mem
    cases s <;> cases t <;> cases r <;> simp_all

theorem odd_iff (component : w.IsComponent start c) :
    c.odd = true ↔ OnOddWalk w.LinkedTo start := by
  constructor
  · intro odd
    obtain ⟨x, hx, y, hy, same, linked⟩ := component.odd odd
    obtain ⟨m, there, parity⟩ := component.walk x hx
    obtain ⟨n, back, parity'⟩ := component.walk y hy
    refine ⟨m + 1 + n, ?_, (there.append (Walk.single linked)).append (back.reverse LinkedTo.symm)⟩
    rw [Nat.even_add, Nat.even_add_one, parity, parity', same]
    simp
  · rintro ⟨n, parity, closed⟩
    by_contra balanced
    rw [Bool.not_eq_true] at balanced
    have even := component.side_of_walk balanced component.begins component.begins closed
    exact parity (even.mpr rfl)

theorem beside_iff (component : w.IsComponent start c) (balanced : c.odd = false) {j k : JointId}
    {s t : Side} (hj : (j, s) ∈ c.sockets) (hk : (k, t) ∈ c.sockets) : w.Beside j k ↔ s = t := by
  constructor
  · rintro ⟨n, even, walk⟩
    exact (component.side_of_walk balanced hj hk walk).mp even
  · intro same
    obtain ⟨m, there⟩ := component.mem_iff.mp ⟨s, hj⟩
    obtain ⟨n, back⟩ := component.mem_iff.mp ⟨t, hk⟩
    have walk := (there.reverse LinkedTo.symm).append back
    exact ⟨m + n, (component.side_of_walk balanced hj hk walk).mpr same, walk⟩

theorem mem_onSide_iff {j : JointId} {side : Side} : j ∈ c.onSide side ↔ (j, side) ∈ c.sockets := by
  simp [Component.onSide]

theorem start_unique (component : w.IsComponent start c) {other : Nat}
    (component' : w.IsComponent other c) : start = other := by
  have above := component.lowest _ component'.begins
  have below := component'.lowest _ component.begins
  exact Nat.le_antisymm above below

end IsComponent

/-! ## Odd components -/

/-- An odd component is found when there is one, and the first one has the lowest socket. -/
theorem find_odd_spec (sound : w.Sound) :
    match w.components.find? fun c => c.odd with
    | none => ∀ j, ¬ OnOddWalk w.LinkedTo j
    | some c => ∃ start, w.IsComponent start c ∧ OnOddWalk w.LinkedTo start ∧
        ∀ j, OnOddWalk w.LinkedTo j → start ≤ j := by
  obtain ⟨p, valid, same⟩ := components_valid sound
  rw [← same]
  have located : ∀ j, OnOddWalk w.LinkedTo j →
      ∃ c ∈ p.components, c.odd = true ∧ ∃ side, (j, side) ∈ c.sockets := by
    rintro j ⟨n, parity, closed⟩
    obtain ⟨m, rfl⟩ : ∃ m, n = m + 1 := by
      cases n with
      | zero => exact absurd Even.zero parity
      | succ m => exact ⟨m, rfl⟩
    have linked := links_ne_nil_of_walk sound closed
    obtain ⟨k, joined⟩ := (links_ne_nil_iff sound).mp linked
    obtain ⟨c, hc, side, mem⟩ :=
      valid.covered j (mem_liveSockets_iff.mpr (joined.isSocket sound)) linked
    obtain ⟨a, -, component⟩ := valid.each c hc
    have back := Connected.symm LinkedTo.symm (component.mem_iff.mp ⟨side, mem⟩)
    have odd : OnOddWalk w.LinkedTo a :=
      OnOddWalk.of_connected LinkedTo.symm ⟨_, parity, closed⟩ back
    exact ⟨c, hc, component.odd_iff.mpr odd, side, mem⟩
  cases found : p.components.find? fun c => c.odd with
  | none =>
    intro j h
    obtain ⟨c, hc, odd, -⟩ := located j h
    exact List.find?_eq_none.mp found c hc odd
  | some c =>
    obtain ⟨odd, before, after, listed, first⟩ := List.find?_eq_some_iff_append.mp found
    obtain ⟨start, -, component⟩ := valid.each c (by rw [listed]; simp)
    refine ⟨start, component, component.odd_iff.mp odd, ?_⟩
    intro j h
    obtain ⟨d, hd, odd', side, mem⟩ := located j h
    rw [listed] at hd
    rcases List.mem_append.mp hd with earlier | hd
    · have even := first d earlier
      simp [odd'] at even
    · rcases List.mem_cons.mp hd with rfl | later
      · exact component.lowest _ mem
      · have ascending := valid.ascending
        rw [listed] at ascending
        obtain ⟨a, b, ha, hb, less⟩ :=
          (List.pairwise_cons.mp (List.pairwise_append.mp ascending).2.1).1 d later
        obtain rfl := component.start_unique ha
        exact Nat.le_trans (Nat.le_of_lt less) (hb.lowest _ mem)

/-! ## The classes of sockets -/

/-- The groups with at least one member, behind their least one. -/
def ranked (groups : List (List JointId)) : List (JointId × List JointId) :=
  groups.filterMap fun members => members.min?.map (·, members)

theorem foldl_mergeClass (groups : List (List JointId)) (state : Wiring × Nat) :
    (groups.foldl mergeClass state).1 =
      (ranked groups).foldl (fun w c => w.contract c.1 c.2) state.1 := by
  induction groups generalizing state with
  | nil => rfl
  | cons members rest ih =>
    rw [List.foldl_cons, ih]
    unfold mergeClass ranked
    cases h : members.min? with
    | none => simp [h]
    | some rep => simp [h]

theorem mem_ranked_iff {groups : List (List JointId)} {c : JointId × List JointId} :
    c ∈ ranked groups ↔ c.2 ∈ groups ∧ c.2.min? = some c.1 := by
  obtain ⟨rep, members⟩ := c
  simp only [ranked, List.mem_filterMap, Option.map_eq_some_iff, Prod.mk.injEq]
  constructor
  · rintro ⟨group, mem, least, found, rfl, rfl⟩
    exact ⟨mem, found⟩
  · rintro ⟨mem, found⟩
    exact ⟨members, mem, rep, found, rfl, rfl⟩

theorem gatherAll_of_mem {classes : List (Nat × List Nat)} (disjoint : DisjointClasses classes)
    {c : Nat × List Nat} (hc : c ∈ classes) {j : Nat} (hj : j ∈ c.2) :
    gatherAll classes j = c.1 := by
  induction classes with
  | nil => cases hc
  | cons d rest ih =>
    obtain ⟨apart, disjoint'⟩ := List.pairwise_cons.mp disjoint
    unfold gatherAll
    rcases List.mem_cons.mp hc with rfl | hc
    · simp [hj]
    · have away : j ∉ d.2 := fun inside => apart c hc j (.inr inside) (.inr hj)
      simp [away, ih disjoint' hc]

theorem mem_socketClasses_iff {components : List Component} {members : List JointId} :
    members ∈ socketClasses components ↔ ∃ c ∈ components, ∃ side, members = c.onSide side := by
  simp only [socketClasses, List.mem_flatMap, List.mem_cons, List.not_mem_nil, or_false]
  constructor
  · rintro ⟨c, hc, same | same⟩
    · exact ⟨c, hc, .first, same⟩
    · exact ⟨c, hc, .second, same⟩
  · rintro ⟨c, hc, side, same⟩
    cases side with
    | first => exact ⟨c, hc, .inl same⟩
    | second => exact ⟨c, hc, .inr same⟩

theorem inClass_iff_of_ranked {groups : List (List JointId)} {c : JointId × List JointId}
    (hc : c ∈ ranked groups) {j : JointId} : InClass c.1 c.2 j ↔ j ∈ c.2 := by
  have least := (mem_ranked_iff.mp hc).2
  constructor
  · rintro (rfl | mem)
    · exact List.min?_mem least
    · exact mem
  · exact .inr

theorem disjoint_ranked (sound : w.Sound) :
    DisjointClasses (ranked (socketClasses w.components)) := by
  obtain ⟨p, valid, same⟩ := components_valid sound
  have apart : (socketClasses w.components).Pairwise fun m m' => ∀ j ∈ m, j ∉ m' := by
    rw [← same, socketClasses, List.pairwise_flatMap]
    constructor
    · intro c hc
      obtain ⟨start, -, component⟩ := valid.each c hc
      simp only [List.pairwise_cons, List.mem_singleton, forall_eq, List.not_mem_nil, false_implies,
        implies_true, List.Pairwise.nil, and_true]
      intro j first second
      rw [IsComponent.mem_onSide_iff] at first second
      cases component.side_unique first second
    · refine valid.disjoint.imp ?_
      intro c d disjoint m hm m' hm' j hj hj'
      have inside : ∃ side, (j, side) ∈ c.sockets := by
        rcases List.mem_pair.mp hm with rfl | rfl
        · exact ⟨_, IsComponent.mem_onSide_iff.mp hj⟩
        · exact ⟨_, IsComponent.mem_onSide_iff.mp hj⟩
      have inside' : ∃ side, (j, side) ∈ d.sockets := by
        rcases List.mem_pair.mp hm' with rfl | rfl
        · exact ⟨_, IsComponent.mem_onSide_iff.mp hj'⟩
        · exact ⟨_, IsComponent.mem_onSide_iff.mp hj'⟩
      obtain ⟨side, mem⟩ := inside
      obtain ⟨other, mem'⟩ := inside'
      exact disjoint j side other mem mem'
  unfold DisjointClasses
  rw [ranked, List.pairwise_filterMap]
  refine apart.imp ?_
  intro m m' disjoint c hc d hd j hj hj'
  obtain ⟨rep, least, rfl⟩ := Option.map_eq_some_iff.mp hc
  obtain ⟨rep', least', rfl⟩ := Option.map_eq_some_iff.mp hd
  have left : j ∈ m := by
    rcases hj with same | mem
    · exact same ▸ List.min?_mem least
    · exact mem
  have right : j ∈ m' := by
    rcases hj' with same | mem
    · exact same ▸ List.min?_mem least'
    · exact mem
  exact disjoint j left right

/-- The groups are made of linked sockets. -/
theorem isSocket_of_mem_ranked (sound : w.Sound) {c : JointId × List JointId}
    (hc : c ∈ ranked (socketClasses w.components)) {j : JointId} (hj : j ∈ c.2) : w.IsSocket j := by
  obtain ⟨p, valid, same⟩ := components_valid sound
  obtain ⟨d, hd, side, members⟩ := mem_socketClasses_iff.mp (mem_ranked_iff.mp hc).1
  rw [← same] at hd
  obtain ⟨start, -, component⟩ := valid.each d hd
  rw [members, IsComponent.mem_onSide_iff] at hj
  obtain ⟨k, linked⟩ := (links_ne_nil_iff sound).mp (component.linked _ hj)
  exact linked.isSocket sound

theorem isClass_ranked (sound : w.Sound) (balanced : ∀ j, ¬ OnOddWalk w.LinkedTo j)
    {c : JointId × List JointId} (hc : c ∈ ranked (socketClasses w.components)) :
    w.IsClass c.1 c.2 := by
  obtain ⟨p, valid, same⟩ := components_valid sound
  obtain ⟨grouped, least⟩ := mem_ranked_iff.mp hc
  obtain ⟨d, hd, side, members⟩ := mem_socketClasses_iff.mp grouped
  rw [← same] at hd
  obtain ⟨start, -, component⟩ := valid.each d hd
  have even : d.odd = false := by
    rw [← Bool.not_eq_true, component.odd_iff]
    exact balanced start
  have socket : ∀ j ∈ c.2, w.IsSocket j := fun j hj => isSocket_of_mem_ranked sound hc hj
  refine {
    nodup := ?nodup
    le := (List.min?_eq_some_iff.mp least).2
    sort := fun j hj => .inr ⟨socket _ (List.min?_mem least), socket j hj⟩
    apart := ?apart }
  case nodup =>
    rw [members, Component.onSide]
    exact (List.Sublist.map _ List.filter_sublist).nodup component.nodup
  case apart =>
    intro e wire h both
    rw [inClass_iff_of_ranked hc, inClass_iff_of_ranked hc] at both
    obtain ⟨ends, kind⟩ := wire
    cases kind with
    | attachment => exact (sound.attachment e ends h).1.not_isSocket (socket _ both.1)
    | link origin =>
      rw [members, IsComponent.mem_onSide_iff, IsComponent.mem_onSide_iff] at both
      obtain ⟨other, mem, noted⟩ := component.closed _ both.1 ends.second
        ⟨e, ends, origin, h, ends.joins_self⟩
      have odd := noted (component.side_unique mem both.2)
      rw [even] at odd
      cases odd

/-- Where the classes of sockets send a joint. -/
def socketTarget (w : Wiring) : Nat → Nat := gatherAll (ranked (socketClasses w.components))

theorem least_socketTarget (sound : w.Sound) (balanced : ∀ j, ¬ OnOddWalk w.LinkedTo j) :
    Least w.Beside w.socketTarget := by
  obtain ⟨p, valid, same⟩ := components_valid sound
  have cases : ∀ j, (∃ c ∈ w.components, ∃ start side, w.IsComponent start c ∧ c.odd = false ∧
      (j, side) ∈ c.sockets ∧ (c.onSide side).min? = some (w.socketTarget j)) ∨
      (w.links j = [] ∧ w.socketTarget j = j) := by
    intro j
    by_cases linked : w.links j = []
    · refine .inr ⟨linked, gatherAll_eq_self ?_⟩
      intro c hc hj
      obtain ⟨d, hd, side, members⟩ := mem_socketClasses_iff.mp (mem_ranked_iff.mp hc).1
      rw [← same] at hd
      obtain ⟨start, -, component⟩ := valid.each d hd
      rw [members, IsComponent.mem_onSide_iff] at hj
      exact component.linked _ hj linked
    · obtain ⟨k, joined⟩ := (links_ne_nil_iff sound).mp linked
      obtain ⟨c, hc, side, mem⟩ :=
        valid.covered j (mem_liveSockets_iff.mpr (joined.isSocket sound)) linked
      obtain ⟨start, -, component⟩ := valid.each c hc
      have even : c.odd = false := by
        rw [← Bool.not_eq_true, component.odd_iff]
        exact balanced start
      rw [same] at hc
      have inside := IsComponent.mem_onSide_iff.mpr mem
      obtain ⟨rep, least⟩ : ∃ rep, (c.onSide side).min? = some rep :=
        Option.isSome_iff_exists.mp (List.isSome_min?_of_mem inside)
      have ranked : (rep, c.onSide side) ∈ ranked (socketClasses w.components) :=
        mem_ranked_iff.mpr ⟨mem_socketClasses_iff.mpr ⟨c, hc, side, rfl⟩, least⟩
      have target : w.socketTarget j = rep := gatherAll_of_mem (disjoint_ranked sound) ranked inside
      exact .inl ⟨c, hc, start, side, component, even, mem, by rw [target]; exact least⟩
  constructor
  · intro j
    rcases cases j with ⟨c, -, start, side, component, even, mem, least⟩ | ⟨-, still⟩
    · have chosen := IsComponent.mem_onSide_iff.mp (List.min?_mem least)
      exact (component.beside_iff even mem chosen).mpr rfl
    · rw [still]
      exact (beside_equivalence w).refl j
  · intro j k related
    rcases cases j with ⟨c, -, start, side, component, even, mem, least⟩ | ⟨unlinked, still⟩
    · obtain ⟨n, -, walk⟩ := id related
      obtain ⟨other, mem'⟩ := component.mem_of_walk mem walk
      obtain rfl := (component.beside_iff even mem mem').mp related
      exact (List.min?_eq_some_iff.mp least).2 k (IsComponent.mem_onSide_iff.mpr mem')
    · obtain ⟨n, -, walk⟩ := related
      cases n with
      | zero =>
        obtain rfl := Walk.zero_iff.mp walk
        exact Nat.le_of_eq still
      | succ n => exact absurd unlinked (links_ne_nil_of_walk sound walk)

/-- Without an odd walk no component is returned as odd, whether or not that is checked. -/
theorem find_odd_of_balanced (sound : w.Sound) (balanced : ∀ j, ¬ OnOddWalk w.LinkedTo j)
    (checkParity : Bool) : (w.components.find? fun c => checkParity && c.odd) = none := by
  have search := find_odd_spec sound
  rw [List.find?_eq_none]
  intro c hc odd
  rw [Bool.and_eq_true] at odd
  cases found : w.components.find? fun c => c.odd with
  | none => exact List.find?_eq_none.mp found c hc odd.2
  | some d =>
    rw [found] at search
    obtain ⟨start, -, odd', -⟩ := search
    exact balanced start odd'

/-- Without an odd walk the check changes nothing. -/
theorem mergeSockets_of_balanced (sound : w.Sound) (balanced : ∀ j, ¬ OnOddWalk w.LinkedTo j)
    (checkParity : Bool) : w.mergeSockets checkParity = w.mergeSockets true := by
  unfold mergeSockets
  simp only [find_odd_of_balanced sound balanced]

/-- What the merging of sockets comes to: the odd component with the lowest socket, or the wiring
with every socket sent to the lowest one beside it. -/
theorem mergeSockets_spec (sound : w.Sound) (checkParity : Bool)
    (checked : checkParity = true ∨ ∀ j, ¬ OnOddWalk w.LinkedTo j) :
    match w.mergeSockets checkParity with
    | .error c => ∃ start, w.IsComponent start c ∧ OnOddWalk w.LinkedTo start ∧
        ∀ j, OnOddWalk w.LinkedTo j → start ≤ j
    | .ok (w', _) => (∀ j, ¬ OnOddWalk w.LinkedTo j) ∧ w'.Sound ∧
        (∀ j, w'.kind? j = if w.socketTarget j = j then w.kind? j else none) ∧
        Redirects w.socketTarget w w' := by
  have merged (balanced : ∀ j, ¬ OnOddWalk w.LinkedTo j) :=
    contractAll_spec (ranked (socketClasses w.components)) w sound
      (fun c hc => isClass_ranked sound balanced hc) (disjoint_ranked sound)
  have search := find_odd_spec sound
  unfold mergeSockets
  rcases checked with rfl | balanced
  · simp only [Bool.true_and]
    cases found : w.components.find? fun c => c.odd with
    | none =>
      rw [found] at search
      simp only
      rw [foldl_mergeClass]
      exact ⟨search, merged search⟩
    | some c =>
      rw [found] at search
      exact search
  · simp only [find_odd_of_balanced sound balanced]
    rw [foldl_mergeClass]
    exact ⟨balanced, merged balanced⟩

end Wiring

end GraphSplice
