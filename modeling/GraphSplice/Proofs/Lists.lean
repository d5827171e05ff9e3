import GraphSplice.Handle
import Mathlib.Data.List.Induction
import Mathlib.Data.List.Perm.Basic
import Mathlib.Data.List.Sort
import Mathlib.Data.Set.Function

/-!
Lists with an order or with numbered elements.
-/

namespace GraphSplice

/-- Two ascending lists with the same members are equal. -/
theorem eq_of_ascending {α : Type} (f : α → Nat) {xs ys : List α}
    (hx : xs.Pairwise fun x y => f x < f y) (hy : ys.Pairwise fun x y => f x < f y)
    (same : ∀ x, x ∈ xs ↔ x ∈ ys) : xs = ys := by
  have : Std.Irrefl fun x y => f x < f y := ⟨fun x => Nat.lt_irrefl (f x)⟩
  have : Std.Antisymm fun x y => f x < f y := ⟨fun _ _ h h' => absurd h (Nat.lt_asymm h')⟩
  exact hx.eq_of_mem_iff hy same

theorem rel_of_idxOf_lt {α : Type} [DecidableEq α] {R : α → α → Prop} {xs : List α}
    (related : xs.Pairwise R) {x y : α} (hx : x ∈ xs) (hy : y ∈ xs)
    (before : xs.idxOf x < xs.idxOf y) : R x y := by
  have step := List.pairwise_iff_getElem.mp related _ _ (List.idxOf_lt_length_of_mem hx)
    (List.idxOf_lt_length_of_mem hy) before
  rwa [List.getElem_idxOf, List.getElem_idxOf] at step

theorem idxOf_le_idxOf_iff {α : Type} [DecidableEq α] (f : α → Nat) {xs : List α}
    (ascending : (xs.map f).Pairwise (· < ·)) {x y : α} (hx : x ∈ xs) (hy : y ∈ xs) :
    xs.idxOf x ≤ xs.idxOf y ↔ f x ≤ f y := by
  have less := List.pairwise_map.mp ascending
  constructor
  · intro before
    rcases Nat.lt_or_eq_of_le before with before | same
    · exact Nat.le_of_lt (rel_of_idxOf_lt less hx hy before)
    · rw [(List.idxOf_inj hx).mp same]
  · intro before
    by_contra after
    exact absurd (rel_of_idxOf_lt less hy hx (Nat.lt_of_not_le after)) (Nat.not_lt.mpr before)

/-- A fold that passes over some elements is one over what the others yield. -/
theorem foldl_eq_of_elim {α β γ : Type} {f : β → α → β} {ask : α → Option γ} {g : β → γ → β}
    (h : ∀ b x, f b x = (ask x).elim b (g b)) (xs : List α) (b : β) :
    xs.foldl f b = (xs.filterMap ask).foldl g b := by
  rw [List.foldl_filterMap]
  congr 1
  funext b x
  rw [h]
  cases ask x <;> rfl

theorem zipIdx_ascending {α : Type} (xs : List α) (n : Nat) :
    ((xs.zipIdx n).map (·.2)).Pairwise (· < ·) := by
  rw [List.zipIdx_map_snd]
  exact List.pairwise_lt_range'

theorem getElem?_idxOf {α : Type} [DecidableEq α] {xs : List α} {x : α} (hx : x ∈ xs) :
    xs[xs.idxOf x]? = some x := by
  rw [List.getElem?_eq_getElem (List.idxOf_lt_length_of_mem hx), List.getElem_idxOf]

theorem idxOf_of_getElem? {α : Type} [DecidableEq α] {xs : List α} (nodup : xs.Nodup) {i : Nat}
    {x : α} (found : xs[i]? = some x) : xs.idxOf x = i := by
  obtain ⟨inside, rfl⟩ := List.getElem?_eq_some_iff.mp found
  exact nodup.idxOf_getElem i inside

theorem mem_take_iff {α : Type} {xs : List α} {n : Nat} {x : α} :
    x ∈ xs.take n ↔ ∃ i < n, xs[i]? = some x := by
  simp only [List.mem_iff_getElem?, List.getElem?_take]
  refine exists_congr fun i => ?_
  split <;> simp_all

/-- In a list without repetition no member stands before itself. -/
theorem nodup_iff_not_mem_take {α : Type} {xs : List α} :
    xs.Nodup ↔ ∀ (i : Nat) (x : α), xs[i]? = some x → x ∉ xs.take i := by
  rw [List.nodup_iff_getElem?_ne_getElem?]
  constructor
  · intro distinct i x found early
    obtain ⟨j, before, found'⟩ := mem_take_iff.mp early
    obtain ⟨inside, -⟩ := List.getElem?_eq_some_iff.mp found
    exact distinct j i before inside (found'.trans found.symm)
  · intro fresh i j before inside same
    have found := List.getElem?_eq_getElem inside
    exact fresh j _ found (mem_take_iff.mpr ⟨i, before, same.trans found⟩)

/-- Where the elements that pass are those from one place on, the first of them is at that place. -/
theorem find?_eq_getElem? {α : Type} {test : α → Bool} {xs : List α} {n : Nat}
    (passes : ∀ (i : Nat) (x : α), xs[i]? = some x → (test x = true ↔ n ≤ i)) :
    xs.find? test = xs[n]? := by
  cases found : xs[n]? with
  | none =>
    refine List.find?_eq_none.mpr fun x hx late => ?_
    obtain ⟨i, there⟩ := List.getElem?_of_mem hx
    have inside := (List.getElem?_eq_some_iff.mp there).1
    exact absurd ((passes i x there).mp late)
      (Nat.not_le.mpr (Nat.lt_of_lt_of_le inside (List.getElem?_eq_none_iff.mp found)))
  | some x =>
    obtain ⟨inside, rfl⟩ := List.getElem?_eq_some_iff.mp found
    refine List.find?_eq_some_iff_getElem.mpr
      ⟨(passes n _ found).mpr (Nat.le_refl n), n, inside, rfl, ?_⟩
    intro i before
    have early := List.getElem?_eq_getElem (Nat.lt_trans before inside)
    simpa [Nat.not_le.mpr before] using (passes i _ early).not

/-- Counting through the list meets every number below the total at an element that counts. -/
theorem exists_countP_take {α : Type} {test : α → Bool} {xs : List α} {n : Nat}
    (below : n < xs.countP test) :
    ∃ (m : Nat) (x : α), xs[m]? = some x ∧ test x = true ∧ (xs.take m).countP test = n := by
  induction xs generalizing n with
  | nil => simp at below
  | cons x xs ih =>
    by_cases counts : test x = true
    · cases n with
      | zero => exact ⟨0, x, rfl, counts, rfl⟩
      | succ n =>
        rw [List.countP_cons_of_pos counts] at below
        obtain ⟨m, y, found, counts', rfl⟩ := ih (Nat.lt_of_succ_lt_succ below)
        exact ⟨m + 1, y, found, counts', by rw [List.take_succ_cons, List.countP_cons_of_pos counts]⟩
    · rw [List.countP_cons_of_neg counts] at below
      obtain ⟨m, y, found, counts', rfl⟩ := ih below
      exact ⟨m + 1, y, found, counts', by rw [List.take_succ_cons, List.countP_cons_of_neg counts]⟩

/-- An element that counts is passed before the count of what follows it. -/
theorem countP_take_lt {α : Type} (test : α → Bool) {xs : List α} {m n : Nat} {x : α}
    (before : m < n) (found : xs[m]? = some x) (counts : test x = true) :
    (xs.take m).countP test < (xs.take n).countP test := by
  obtain ⟨inside, rfl⟩ := List.getElem?_eq_some_iff.mp found
  have later := (List.take_prefix_take_left (l := xs) before).sublist.countP_le (p := test)
  rw [List.take_succ_eq_append_getElem inside, List.countP_append, List.countP_singleton,
    if_pos counts] at later
  exact later

theorem findIdx_congr {α : Type} {f g : α → Bool} {xs : List α} (same : ∀ x ∈ xs, f x = g x) :
    xs.findIdx f = xs.findIdx g := by
  induction xs with
  | nil => rfl
  | cons x xs ih =>
    rw [List.findIdx_cons, List.findIdx_cons, same x List.mem_cons_self,
      ih fun y hy => same y (List.mem_cons_of_mem x hy)]

/-- The first place of a value tells the value. -/
theorem eq_of_findIdx_eq {α : Type} {f : α → Nat} {xs : List α} {i j : Nat}
    (hi : ∃ x ∈ xs, f x = i) (hj : ∃ x ∈ xs, f x = j)
    (same : (xs.findIdx fun x => f x = i) = xs.findIdx fun x => f x = j) : i = j := by
  have found : ∀ {k}, (∃ x ∈ xs, f x = k) → ∃ x, xs[xs.findIdx fun x => f x = k]? = some x ∧
      f x = k := by
    rintro k ⟨x, hx, hk⟩
    have inside : (xs.findIdx fun x => f x = k) < xs.length :=
      List.findIdx_lt_length_of_exists ⟨x, hx, by simpa using hk⟩
    exact ⟨_, List.getElem?_eq_getElem inside, by simpa using List.findIdx_getElem (w := inside)⟩
  obtain ⟨x, hx, rfl⟩ := found hi
  obtain ⟨y, hy, rfl⟩ := found hj
  rw [same, hy] at hx
  cases hx
  rfl

theorem lookup_zipIdx {α β : Type} {f : α → Nat} (g : Nat → β) {xs : List α} {j : Nat}
    (h : ∃ x ∈ xs, f x = j) (k : Nat) :
    ((xs.zipIdx k).map fun x => (f x.1, g x.2)).lookup j =
      some (g (k + xs.findIdx fun x => f x = j)) := by
  induction xs generalizing k with
  | nil =>
    obtain ⟨x, hx, -⟩ := h
    cases hx
  | cons x xs ih =>
    rw [List.zipIdx_cons, List.map_cons, List.lookup_cons, List.findIdx_cons]
    by_cases first : f x = j
    · simp [first]
    · obtain ⟨y, hy, later⟩ := h
      have inRest : y ∈ xs := by
        rcases List.mem_cons.mp hy with rfl | inRest
        · exact absurd later first
        · exact inRest
      rw [ih ⟨y, inRest, later⟩ (k + 1)]
      have other : (j == f x) = false := by simpa using Ne.symm first
      simp only [other, first, decide_false, cond_false]
      congr 2
      omega

/-- A numbered list taken apart. -/
theorem zipIdx_split {α : Type} {xs : List α} {done rest : List (α × Nat)} {x : α} {k : Nat}
    (h : xs.zipIdx = done ++ (x, k) :: rest) :
    k = done.length ∧ xs[k]? = some x ∧
      ∀ (y : α) (i : Nat), (y, i) ∈ done ↔ xs[i]? = some y ∧ i < k := by
  have whole : ∀ (y : α) (i : Nat), (done ++ (x, k) :: rest)[i]? = some (y, i) ↔ xs[i]? = some y := by
    intro y i
    rw [← h, List.getElem?_zipIdx]
    simp
  have numbered : ∀ (i : Nat) (y : α × Nat), (done ++ (x, k) :: rest)[i]? = some y → y.2 = i := by
    intro i y hy
    rw [← h, List.getElem?_zipIdx] at hy
    obtain ⟨z, hz, rfl⟩ := Option.map_eq_some_iff.mp hy
    exact Nat.zero_add i
  have place : k = done.length := numbered done.length (x, k) (by simp)
  subst place
  refine ⟨rfl, (whole x _).mp (by simp), ?_⟩
  intro y i
  rw [← whole]
  constructor
  · intro mem
    obtain ⟨i', hi'⟩ := List.getElem?_of_mem mem
    have inside := (List.getElem?_eq_some_iff.mp hi').1
    have left : (done ++ (x, done.length) :: rest)[i']? = done[i']? :=
      List.getElem?_append_left inside
    rw [← left] at hi'
    obtain rfl : i = i' := numbered i' (y, i) hi'
    exact ⟨hi', inside⟩
  · rintro ⟨found, inside⟩
    rw [List.getElem?_append_left inside] at found
    exact List.mem_of_getElem? found

theorem filterMap_filter_of_none {α β : Type} {f : α → Option β} {test : α → Bool} (xs : List α)
    (none : ∀ x, test x = false → f x = none) : (xs.filter test).filterMap f = xs.filterMap f := by
  rw [List.filterMap_filter]
  apply List.filterMap_congr
  intro x _
  cases h : test x with
  | true => simp
  | false => simp [none x h]

/-- A one-to-one relation between the elements of two lists as a map of their places. -/
theorem exists_bijOn_places {α β : Type} {xs : List α} {ys : List β} (nodupX : xs.Nodup)
    (nodupY : ys.Nodup) {R : α → β → Prop} (total : ∀ x ∈ xs, ∃ y ∈ ys, R x y)
    (onto : ∀ y ∈ ys, ∃ x ∈ xs, R x y)
    (functional : ∀ x ∈ xs, ∀ y ∈ ys, ∀ y' ∈ ys, R x y → R x y' → y = y')
    (injective : ∀ x ∈ xs, ∀ x' ∈ xs, ∀ y ∈ ys, R x y → R x' y → x = x') :
    ∃ f : Nat → Nat, Set.BijOn f {i | i < xs.length} {j | j < ys.length} ∧
      ∀ (i : Nat) (x : α), xs[i]? = some x → ∃ y, ys[f i]? = some y ∧ R x y := by
  have places : ∀ i : Nat, ∃ j : Nat, ∀ x, xs[i]? = some x → ∃ y, ys[j]? = some y ∧ R x y := by
    intro i
    by_cases inside : i < xs.length
    · obtain ⟨y, hy, related⟩ := total xs[i] (List.getElem_mem inside)
      obtain ⟨j, hj⟩ := List.getElem?_of_mem hy
      refine ⟨j, fun x hx => ⟨y, hj, ?_⟩⟩
      rw [List.getElem?_eq_getElem inside] at hx
      cases hx
      exact related
    · refine ⟨0, fun x hx => ?_⟩
      exact absurd (List.getElem?_eq_some_iff.mp hx).1 inside
  choose f hf using places
  refine ⟨f, ⟨?_, ?_, ?_⟩, hf⟩
  · intro i inside
    obtain ⟨y, hy, -⟩ := hf i _ (List.getElem?_eq_getElem inside)
    exact (List.getElem?_eq_some_iff.mp hy).1
  · intro i inside i' inside' same
    obtain ⟨y, hy, related⟩ := hf i _ (List.getElem?_eq_getElem inside)
    obtain ⟨y', hy', related'⟩ := hf i' _ (List.getElem?_eq_getElem inside')
    rw [same, hy'] at hy
    cases hy
    have equal := injective _ (List.getElem_mem inside) _ (List.getElem_mem inside') _
      (List.mem_of_getElem? hy') related related'
    exact (nodupX.getElem_inj_iff).mp equal
  · intro j inside
    obtain ⟨x, hx, related⟩ := onto ys[j] (List.getElem_mem inside)
    obtain ⟨i, hi⟩ := List.getElem?_of_mem hx
    refine ⟨i, (List.getElem?_eq_some_iff.mp hi).1, ?_⟩
    obtain ⟨y, hy, related'⟩ := hf i x hi
    have equal := functional x hx y (List.mem_of_getElem? hy) _ (List.getElem_mem inside) related'
      related
    obtain ⟨inside', same⟩ := List.getElem?_eq_some_iff.mp hy
    exact (nodupY.getElem_inj_iff).mp (same.trans equal)

/-- The places of some elements, and the elements at them. -/
theorem map_filter_range {α : Type} (xs : List α) {p : Nat → Bool} {q : α → Bool}
    (agree : ∀ (i : Nat) (x : α), xs[i]? = some x → p i = q x) :
    ((List.range xs.length).filter p).map (fun i => xs[i]?) = (xs.filter q).map some := by
  induction xs using List.reverseRecOn with
  | nil => rfl
  | append_singleton xs x ih =>
    have inside : ∀ i ∈ (List.range xs.length).filter p, (xs ++ [x])[i]? = xs[i]? := by
      intro i hi
      apply List.getElem?_append_left
      exact List.mem_range.mp (List.mem_of_mem_filter hi)
    have front := ih fun i y found => agree i y (by
      rw [List.getElem?_append_left (List.getElem?_eq_some_iff.mp found).1]
      exact found)
    have last : p xs.length = q x := agree xs.length x (by simp)
    rw [List.length_append, List.length_singleton, List.range_succ, List.filter_append,
      List.map_append, List.map_congr_left inside, front, List.filter_append, List.map_append]
    congr 1
    cases kept : q x with
    | true => simp [last, kept]
    | false => simp [last, kept]

theorem map_filter_handles {α : Type} {kind : Kind} (xs : List α) {p : Handle kind → Bool}
    {q : α → Bool} (agree : ∀ (h : Handle kind) (x : α), xs[h.slot]? = some x → p h = q x) :
    (((List.range xs.length).map Handle.mk).filter p).map (fun h => xs[h.slot]?) =
      (xs.filter q).map some := by
  rw [List.filter_map, List.map_map]
  exact map_filter_range xs fun i x found => agree ⟨i⟩ x found

theorem filterMap_range {α : Type} (xs : List α) :
    (List.range xs.length).filterMap (fun i => xs[i]?) = xs := by
  have places := map_filter_range xs (p := fun _ => true) (q := fun _ => true) fun _ _ _ => rfl
  rw [List.filter_eq_self.mpr fun _ _ => rfl, List.filter_eq_self.mpr fun _ _ => rfl] at places
  have whole := congrArg (List.filterMap id) places
  rw [List.filterMap_map, List.filterMap_map] at whole
  simpa using whole

theorem filterMap_handles {α : Type} {kind : Kind} (xs : List α) :
    ((List.range xs.length).map (@Handle.mk kind)).filterMap (fun h => xs[h.slot]?) = xs := by
  rw [List.filterMap_map]
  exact filterMap_range xs

theorem map_some_filterMap {α β : Type} {f : α → Option β} {xs : List α}
    (total : ∀ x ∈ xs, (f x).isSome = true) : (xs.filterMap f).map some = xs.map f := by
  induction xs with
  | nil => rfl
  | cons x xs ih =>
    obtain ⟨y, found⟩ := Option.isSome_iff_exists.mp (total x List.mem_cons_self)
    rw [List.filterMap_cons_some found, List.map_cons, List.map_cons, found,
      ih fun z hz => total z (List.mem_cons_of_mem x hz)]

/-- Of lists related element by element, what passes a test that the relation respects. -/
theorem map_filter_of_forall₂ {α β γ : Type} {R : α → β → Prop} {xs : List α} {ys : List β}
    (related : List.Forall₂ R xs ys) {p : α → Bool} {q : β → Bool} {f : α → γ} {g : β → γ}
    (tests : ∀ x y, R x y → p x = q y) (values : ∀ x y, R x y → f x = g y) :
    (xs.filter p).map f = (ys.filter q).map g := by
  induction related with
  | nil => rfl
  | cons first _ ih =>
    rw [List.filter_cons, List.filter_cons, tests _ _ first]
    split
    · rw [List.map_cons, List.map_cons, values _ _ first, ih]
    · exact ih

/-- Where equal images have equal further images, these are permuted alike. -/
theorem perm_map_of_perm {α β γ δ : Type} {f : α → γ} {f' : β → γ} {g : α → δ} {g' : β → δ}
    {xs : List α} {ys : List β} (follows : ∀ x y, f x = f' y → g x = g' y)
    (h : (xs.map f).Perm (ys.map f')) : (xs.map g).Perm (ys.map g') := by
  have own : List.Forall₂ (fun z y => z = f' y) (ys.map f') ys :=
    List.forall₂_map_left_iff.mpr (List.forall₂_same.mpr fun _ _ => rfl)
  obtain ⟨zs, related, perm⟩ := List.perm_comp_forall₂ h own
  have further : List.Forall₂ Eq (xs.map g) (zs.map g') := by
    rw [List.forall₂_map_left_iff, List.forall₂_map_right_iff]
    exact (List.forall₂_map_left_iff.mp related).imp follows
  rw [List.forall₂_eq_eq_eq] at further
  exact further ▸ perm.map g'

theorem mem_zip_of_getElem? {α β : Type} {xs : List α} {ys : List β} {i : Nat} {x : α} {y : β}
    (hx : xs[i]? = some x) (hy : ys[i]? = some y) : (x, y) ∈ xs.zip ys :=
  List.mem_of_getElem? (List.getElem?_zip_eq_some.mpr ⟨hx, hy⟩)

theorem eq_singleton_of_mem {α : Type} {xs : List α} (short : xs.length ≤ 1) {x : α}
    (hx : x ∈ xs) : xs = [x] := by
  match xs, short with
  | [y], _ => rw [List.mem_singleton.mp hx]

theorem exists_mem_zip_iff {α β : Type} (test : α → Bool) {xs : List α} {ys : List β} {y : β} :
    (∃ z ∈ xs.zip ys, test z.1 = true ∧ z.2 = y) ↔
      ∃ i : Nat, (xs[i]?).map test = some true ∧ ys[i]? = some y := by
  constructor
  · rintro ⟨⟨x, _⟩, member, passes, rfl⟩
    obtain ⟨i, found⟩ := List.getElem?_of_mem member
    obtain ⟨there, there'⟩ := List.getElem?_zip_eq_some.mp found
    exact ⟨i, Option.map_eq_some_iff.mpr ⟨x, there, passes⟩, there'⟩
  · rintro ⟨i, passes, there'⟩
    obtain ⟨x, there, passes⟩ := Option.map_eq_some_iff.mp passes
    exact ⟨(x, y), List.mem_of_getElem? (List.getElem?_zip_eq_some.mpr ⟨there, there'⟩), passes, rfl⟩

theorem isSome_lookup_iff {α β : Type} [DecidableEq α] {entries : List (α × β)} {x : α} :
    (entries.lookup x).isSome = true ↔ x ∈ entries.map (·.1) := by
  rw [List.lookup_isSome_iff, List.mem_map]
  exact exists_congr fun entry => and_congr_right' (beq_iff_eq.trans eq_comm)

theorem lookup_cons_eq {α β : Type} [DecidableEq α] (x key : α) (value : β)
    (entries : List (α × β)) :
    ((key, value) :: entries).lookup x = if x = key then some value else entries.lookup x := by
  rw [List.lookup_cons]
  by_cases same : x = key
  · simp [same]
  · simp [same, beq_false_of_ne same]

/-- Where no key comes twice, looking up finds every entry. -/
theorem lookup_eq_some_iff_mem {α β : Type} [BEq α] [LawfulBEq α] {entries : List (α × β)}
    (nodup : (entries.map (·.1)).Nodup) {key : α} {value : β} :
    entries.lookup key = some value ↔ (key, value) ∈ entries := by
  have inside : ∀ found, entries.lookup key = some found → (key, found) ∈ entries := by
    intro found looked
    obtain ⟨before, after, split, -⟩ := List.lookup_eq_some_iff.mp looked
    rw [split]
    exact List.mem_append_right _ List.mem_cons_self
  constructor
  · exact inside value
  · intro there
    cases looked : entries.lookup key with
    | none =>
      have different := List.lookup_eq_none_iff.mp looked (key, value) there
      simp at different
    | some found =>
      have same : (key, found) = (key, value) :=
        List.inj_on_of_nodup_map nodup (inside found looked) there rfl
      rw [(Prod.mk.inj same).2]

theorem lookup_zip {α β : Type} [DecidableEq α] {xs : List α} {ys : List β} (nodup : xs.Nodup)
    {i : Nat} {x : α} {y : β} (hx : xs[i]? = some x) (hy : ys[i]? = some y) :
    (xs.zip ys).lookup x = some y := by
  induction xs generalizing ys i with
  | nil => cases hx
  | cons x' xs ih =>
    obtain ⟨absent, rest⟩ := List.nodup_cons.mp nodup
    cases ys with
    | nil => cases hy
    | cons y' ys =>
      rw [List.zip_cons_cons, List.lookup_cons]
      cases i with
      | zero =>
        cases hx
        cases hy
        simp
      | succ i =>
        rw [List.getElem?_cons_succ] at hx hy
        have other : (x == x') = false := by
          rw [beq_eq_false_iff_ne]
          intro same
          exact absent (same ▸ List.mem_of_getElem? hx)
        rw [other]
        exact ih rest hx hy

theorem lookup_zip_of_map {α β γ : Type} [DecidableEq α] {xs : List α} {ys : List β}
    (nodup : xs.Nodup) {x : α} (hx : x ∈ xs) {f : β → Option γ} {g : α → γ}
    (same : ys.map f = (xs.map g).map some) :
    ∃ y, (xs.zip ys).lookup x = some y ∧ f y = some (g x) := by
  obtain ⟨i, found⟩ := List.getElem?_of_mem hx
  have there := congrArg (fun zs => zs[i]?) same
  simp only [List.getElem?_map, found, Option.map_some] at there
  obtain ⟨y, hy, equal⟩ := Option.map_eq_some_iff.mp there
  exact ⟨y, lookup_zip nodup found hy, equal⟩

/-! ## A common front -/

/-- In both lists the elements with the mark come last, and before them the lists are the same. -/
structure SameFront {α : Type} (marked : α → Bool) (xs ys : List α) : Prop where
  left : xs.Pairwise fun x y => marked x = true → marked y = true
  right : ys.Pairwise fun x y => marked x = true → marked y = true
  same : (xs.filter fun x => !marked x) = ys.filter fun x => !marked x

namespace SameFront

variable {α : Type} {marked : α → Bool} {xs ys : List α}

theorem symm (h : SameFront marked xs ys) : SameFront marked ys xs := ⟨h.right, h.left, h.same.symm⟩

theorem of_append {front rest rest' : List α} (unmarked : ∀ x ∈ front, marked x = false)
    (left : ∀ x ∈ rest, marked x = true) (right : ∀ x ∈ rest', marked x = true) :
    SameFront marked (front ++ rest) (front ++ rest') := by
  have ordered : ∀ last : List α, (∀ x ∈ last, marked x = true) →
      (front ++ last).Pairwise fun x y => marked x = true → marked y = true := by
    intro last all
    apply List.pairwise_append.mpr
    refine ⟨?_, ?_, fun x _ y hy _ => all y hy⟩
    · apply List.pairwise_of_forall_mem_list
      intro x hx y _ mark
      rw [unmarked x hx] at mark
      cases mark
    · exact List.pairwise_of_forall_mem_list fun x _ y hy _ => all y hy
  have gone : ∀ last : List α, (∀ x ∈ last, marked x = true) →
      (last.filter fun x => !marked x) = [] := by
    intro last all
    apply List.filter_eq_nil_iff.mpr
    intro x hx
    simp [all x hx]
  refine ⟨ordered rest left, ordered rest' right, ?_⟩
  rw [List.filter_append, List.filter_append, gone rest left, gone rest' right]

theorem split_of_pairwise (h : xs.Pairwise fun x y => marked x = true → marked y = true) :
    xs = (xs.filter fun x => !marked x) ++ xs.filter marked := by
  induction xs with
  | nil => rfl
  | cons x xs ih =>
    obtain ⟨first, later⟩ := List.pairwise_cons.mp h
    cases mark : marked x with
    | false => simp [mark, ← ih later]
    | true =>
      have none : (xs.filter fun x => !marked x) = [] := by
        apply List.filter_eq_nil_iff.mpr
        intro y hy
        simp [first y hy mark]
      have all : xs.filter marked = xs := List.filter_eq_self.mpr fun y hy => first y hy mark
      simp [mark, none, all]

/-- An element without the mark is at the same place in both lists. -/
theorem getElem? (h : SameFront marked xs ys) {i : Nat} {x : α} (found : xs[i]? = some x)
    (unmarked : marked x = false) : ys[i]? = some x := by
  rw [split_of_pairwise h.left] at found
  rw [split_of_pairwise h.right, ← h.same]
  by_cases inside : i < (xs.filter fun x => !marked x).length
  · rw [List.getElem?_append_left inside] at found ⊢
    exact found
  · rw [List.getElem?_append_right (Nat.le_of_not_lt inside)] at found
    have mark := List.of_mem_filter (List.mem_of_getElem? found)
    rw [unmarked] at mark
    cases mark

theorem filter (h : SameFront marked xs ys) {test test' : α → Bool}
    (agree : ∀ x ∈ xs, marked x = false → test x = test' x) :
    SameFront marked (xs.filter test) (ys.filter test') := by
  refine ⟨h.left.sublist List.filter_sublist, h.right.sublist List.filter_sublist, ?_⟩
  rw [List.filter_filter, List.filter_filter]
  have swap : ∀ (zs : List α) (t : α → Bool),
      (zs.filter fun x => !marked x && t x) = (zs.filter fun x => !marked x).filter t := by
    intro zs t
    rw [List.filter_filter]
    apply List.filter_congr
    intro x _
    exact Bool.and_comm _ _
  rw [swap, swap, ← h.same]
  apply List.filter_congr
  intro x hx
  obtain ⟨inside, unmarked⟩ := List.mem_filter.mp hx
  exact agree x inside (by simpa using unmarked)

/-- Sublists that keep all elements without the mark. -/
theorem of_sublist (h : SameFront marked xs ys) (nodup : xs.Nodup) {part part' : List α}
    (left : part.Sublist xs) (right : part'.Sublist ys)
    (all : ∀ x ∈ xs, marked x = false → x ∈ part)
    (all' : ∀ x ∈ ys, marked x = false → x ∈ part') : SameFront marked part part' := by
  refine ⟨h.left.sublist left, h.right.sublist right, ?_⟩
  have whole : ∀ (zs sub : List α), sub.Sublist zs → (zs.filter fun x => !marked x).Nodup →
      (∀ x ∈ zs, marked x = false → x ∈ sub) →
      (sub.filter fun x => !marked x) = zs.filter fun x => !marked x := by
    intro zs sub inside once every
    apply (inside.filter _).eq_of_length_le
    apply (List.subperm_of_subset once ?_).length_le
    intro x hx
    obtain ⟨mem, unmarked⟩ := List.mem_filter.mp hx
    exact List.mem_filter.mpr ⟨every x mem (by simpa using unmarked), unmarked⟩
  rw [whole xs part left (nodup.filter _) all,
    whole ys part' right (h.same ▸ nodup.filter _) all', h.same]

theorem mem (h : SameFront marked xs ys) {x : α} (hx : x ∈ xs) (unmarked : marked x = false) :
    x ∈ ys := by
  obtain ⟨i, found⟩ := List.getElem?_of_mem hx
  exact List.mem_of_getElem? (h.getElem? found unmarked)

variable [DecidableEq α]

theorem idxOf_eq (h : SameFront marked xs ys) (nodup : ys.Nodup) {x : α} (hx : x ∈ xs)
    (unmarked : marked x = false) : ys.idxOf x = xs.idxOf x := by
  exact idxOf_of_getElem? nodup (h.getElem? (getElem?_idxOf hx) unmarked)

theorem idxOf_le_of_marked (h : SameFront marked xs ys) {x y : α} (hx : x ∈ xs) (hy : y ∈ xs)
    (unmarked : marked x = false) (mark : marked y = true) : xs.idxOf x ≤ xs.idxOf y := by
  by_contra after
  have ordered := List.pairwise_iff_getElem.mp h.left _ _ (List.idxOf_lt_length_of_mem hy)
    (List.idxOf_lt_length_of_mem hx) (Nat.lt_of_not_le after)
  rw [List.getElem_idxOf, List.getElem_idxOf] at ordered
  rw [ordered mark] at unmarked
  cases unmarked

end SameFront

end GraphSplice
