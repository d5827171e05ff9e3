import GraphSplice.Proofs.Blueprint
import GraphSplice.Proofs.Lists

/-!
Records given to the elements of a list in order, and the positions of elements.
-/

namespace GraphSplice

theorem counterAfter_cons {α R : Type} (known? : α → Option R) (counter : StableIndex) (x : α)
    (xs : List α) : counterAfter known? counter (x :: xs) =
      counterAfter known? (if (known? x).isNone then counter.next else counter) xs := by
  unfold counterAfter
  rw [List.countP_cons]
  split
  · rw [Function.iterate_add_apply]
    rfl
  · rfl

theorem stamp_cons {α R : Type} (known? : α → Option R) (make : StableIndex → α → R)
    (counter : StableIndex) (x : α) (xs : List α) : stamp known? make counter (x :: xs) =
      (known? x).getD (make counter x) ::
        stamp known? make (if (known? x).isNone then counter.next else counter) xs := by
  rw [stamp]
  cases known? x <;> rfl

theorem counterAfter_append {α R : Type} (known? : α → Option R) (counter : StableIndex)
    (xs ys : List α) : counterAfter known? counter (xs ++ ys) =
      counterAfter known? (counterAfter known? counter xs) ys := by
  unfold counterAfter
  rw [List.countP_append, Nat.add_comm, Function.iterate_add_apply]

theorem stamp_append {α R : Type} (known? : α → Option R) (make : StableIndex → α → R)
    (counter : StableIndex) (xs ys : List α) : stamp known? make counter (xs ++ ys) =
      stamp known? make counter xs ++ stamp known? make (counterAfter known? counter xs) ys := by
  induction xs generalizing counter with
  | nil => rfl
  | cons x xs ih => rw [List.cons_append, stamp_cons, stamp_cons, counterAfter_cons, ih,
      List.cons_append]

@[simp] theorem length_stamp {α R : Type} (known? : α → Option R) (make : StableIndex → α → R)
    (counter : StableIndex) (xs : List α) :
    (stamp known? make counter xs).length = xs.length := by
  induction xs generalizing counter with
  | nil => rfl
  | cons x xs ih => rw [stamp_cons, List.length_cons, ih, List.length_cons]

/-- What the known and the made records have in common. -/
theorem map_stamp {α β R : Type} {f : R → β} {h : α → β} {known? : α → Option R}
    {make : StableIndex → α → R} (known : ∀ x record, known? x = some record → f record = h x)
    (made : ∀ index x, f (make index x) = h x) (counter : StableIndex) (xs : List α) :
    (stamp known? make counter xs).map f = xs.map h := by
  induction xs generalizing counter with
  | nil => rfl
  | cons x rest ih =>
    rw [stamp_cons, List.map_cons, List.map_cons, ih]
    congr 1
    cases there : known? x with
    | none => exact made counter x
    | some record => exact known x record there

theorem stamp_map {α β R : Type} (f : α → β) (known? : β → Option R) (make : StableIndex → β → R)
    (counter : StableIndex) (xs : List α) : stamp known? make counter (xs.map f) =
      stamp (fun x => known? (f x)) (fun index x => make index (f x)) counter xs := by
  induction xs generalizing counter with
  | nil => rfl
  | cons x xs ih => rw [List.map_cons, stamp_cons, stamp_cons, ih]

theorem counterAfter_map {α β R : Type} (f : α → β) (known? : β → Option R)
    (counter : StableIndex) (xs : List α) :
    counterAfter known? counter (xs.map f) = counterAfter (fun x => known? (f x)) counter xs := by
  unfold counterAfter
  rw [List.countP_map]
  rfl

theorem positions_map {α β : Type} (f : α → β) (test : β → Bool) (xs : List α) :
    positions test (xs.map f) = positions (fun x => test (f x)) xs := by
  unfold positions
  rw [List.zipIdx_map, List.filter_map, List.map_map]
  rfl

theorem length_positions {α : Type} (test : α → Bool) (xs : List α) :
    (positions test xs).length = xs.countP test := by
  rw [positions, List.length_map, ← List.countP_eq_length_filter]
  conv_rhs => rw [← List.zipIdx_map_fst 0 xs, List.countP_map]
  rfl

theorem mem_positions_iff {α : Type} {test : α → Bool} {xs : List α} {i : Nat} :
    i ∈ positions test xs ↔ ∃ x, xs[i]? = some x ∧ test x = true := by
  simp only [positions, List.mem_map, List.mem_filter]
  constructor
  · rintro ⟨⟨x, k⟩, ⟨mem, passed⟩, rfl⟩
    exact ⟨x, List.mem_zipIdx_iff_getElem?.mp mem, passed⟩
  · rintro ⟨x, found, passed⟩
    exact ⟨(x, i), ⟨List.mem_zipIdx_iff_getElem?.mpr found, passed⟩, rfl⟩

theorem positions_ascending {α : Type} (test : α → Bool) (xs : List α) :
    (positions test xs).Pairwise (· < ·) :=
  (zipIdx_ascending xs 0).sublist (List.filter_sublist.map _)

theorem getElem?_stamp {α R : Type} (known? : α → Option R) (make : StableIndex → α → R)
    (counter : StableIndex) (xs : List α) (i : Nat) : (stamp known? make counter xs)[i]? =
      xs[i]?.map fun x => (known? x).getD (make (counterAfter known? counter (xs.take i)) x) := by
  induction xs generalizing counter i with
  | nil => rfl
  | cons x xs ih =>
    rw [stamp_cons]
    cases i with
    | zero => rfl
    | succ i =>
      rw [List.getElem?_cons_succ, ih, List.getElem?_cons_succ, List.take_succ_cons,
        counterAfter_cons]

theorem mem_map_mk_iff {kind : Kind} {slots : List Nat} {h : Handle kind} :
    h ∈ slots.map Handle.mk ↔ h.slot ∈ slots := by
  constructor
  · intro mem
    obtain ⟨slot, inside, same⟩ := List.mem_map.mp mem
    rw [← same]
    exact inside
  · exact fun inside => List.mem_map.mpr ⟨h.slot, inside, rfl⟩

/-- Where the elements with the mark come last, the others are what is before them. -/
theorem map_unmarked_handles {α : Type} {kind : Kind} {marked : α → Bool} {front rest : List α}
    (unmarked : ∀ x ∈ front, marked x = false) (mark : ∀ x ∈ rest, marked x = true) :
    (((List.range (front ++ rest).length).map (@Handle.mk kind)).filter fun h =>
        h ∉ (positions marked (front ++ rest)).map Handle.mk).map
          (fun h => (front ++ rest)[h.slot]?) = front.map some := by
  rw [map_filter_handles (front ++ rest) (q := fun x => !marked x), List.filter_append,
    List.filter_eq_self.mpr fun x hx => by simp [unmarked x hx],
    List.filter_eq_nil_iff.mpr fun x hx => by simp [mark x hx], List.append_nil]
  intro h x found
  have listed : h ∈ (positions marked (front ++ rest)).map Handle.mk ↔ marked x = true := by
    rw [mem_map_mk_iff, mem_positions_iff, found]
    simp
  cases marks : marked x <;> simp [listed, marks]

theorem counterAfter_of_known {α R : Type} {known? : α → Option R} {counter : StableIndex}
    {xs : List α} (known : ∀ x ∈ xs, (known? x).isSome = true) :
    counterAfter known? counter xs = counter := by
  have none : (xs.countP fun x => (known? x).isNone) = 0 := by
    apply List.countP_eq_zero.mpr
    intro x hx
    have some := known x hx
    cases found : known? x with
    | none =>
      rw [found] at some
      cases some
    | some record => simp
  unfold counterAfter
  rw [none]
  rfl

/-- Known elements can be left out without a change to the counter. -/
theorem counterAfter_filter {α R : Type} {known? : α → Option R} {counter : StableIndex}
    {xs : List α} {test : α → Bool}
    (known : ∀ x ∈ xs, test x = false → (known? x).isSome = true) :
    counterAfter known? counter (xs.filter test) = counterAfter known? counter xs := by
  unfold counterAfter
  rw [List.countP_filter]
  congr 1
  apply List.countP_congr
  intro x hx
  cases passed : test x with
  | true => simp
  | false => simp [Option.isSome_iff_ne_none.mp (known x hx passed)]

theorem stamp_of_known {α R : Type} {known? : α → Option R} {make : StableIndex → α → R}
    {counter : StableIndex} {xs : List α} (known : ∀ x ∈ xs, (known? x).isSome = true) :
    stamp known? make counter xs = xs.filterMap known? := by
  induction xs with
  | nil => rfl
  | cons x xs ih =>
    obtain ⟨record, found⟩ := Option.isSome_iff_exists.mp (known x List.mem_cons_self)
    have rest := ih fun y hy => known y (List.mem_cons_of_mem x hy)
    rw [stamp_cons, List.filterMap_cons, found]
    simp only [Option.getD_some, Option.isNone_some, Bool.false_eq_true, if_false]
    rw [rest]

/-- Known elements can be left out together with their records. -/
theorem stamp_filter {α R : Type} {known? : α → Option R} {make : StableIndex → α → R}
    {counter : StableIndex} {xs : List α} {test : α → Bool}
    (known : ∀ x ∈ xs, test x = false → (known? x).isSome = true) :
    stamp known? make counter (xs.filter test) =
      ((xs.zip (stamp known? make counter xs)).filter fun x => test x.1).map (·.2) := by
  induction xs generalizing counter with
  | nil => rfl
  | cons x xs ih =>
    have rest := fun c => @ih c fun y hy => known y (List.mem_cons_of_mem x hy)
    rw [stamp_cons, List.zip_cons_cons]
    cases passed : test x with
    | true =>
      rw [List.filter_cons_of_pos passed, List.filter_cons_of_pos (by exact passed), List.map_cons,
        stamp_cons, rest]
    | false =>
      have out : ¬ test x = true := by simp [passed]
      rw [List.filter_cons_of_neg out, List.filter_cons_of_neg (by exact out)]
      obtain ⟨record, found⟩ := Option.isSome_iff_exists.mp (known x List.mem_cons_self passed)
      rw [found, rest]
      rfl

theorem stamp_congr {α R : Type} {known? known?' : α → Option R} {make make' : StableIndex → α → R}
    {counter : StableIndex} {xs : List α} (knownSame : ∀ x ∈ xs, known? x = known?' x)
    (makeSame : ∀ x ∈ xs, ∀ index, make index x = make' index x) :
    stamp known? make counter xs = stamp known?' make' counter xs := by
  induction xs generalizing counter with
  | nil => rfl
  | cons x xs ih =>
    rw [stamp_cons, stamp_cons, knownSame x List.mem_cons_self, makeSame x List.mem_cons_self,
      ih (fun y hy => knownSame y (List.mem_cons_of_mem x hy))
        fun y hy => makeSame y (List.mem_cons_of_mem x hy)]

/-- Records that are changed after the element that they belong to. -/
theorem stamp_update {α R : Type} (update : α → R → R) (known? : α → Option R)
    (make : StableIndex → α → R) (counter : StableIndex) (xs : List α) :
    stamp (fun x => (known? x).map (update x)) (fun index x => update x (make index x)) counter xs =
      (xs.zip (stamp known? make counter xs)).map fun y => update y.1 y.2 := by
  induction xs generalizing counter with
  | nil => rfl
  | cons x xs ih =>
    rw [stamp_cons, stamp_cons, List.zip_cons_cons, List.map_cons, ← ih]
    cases known? x <;> rfl

/-- The known elements that are left, by their handles, keep their records. -/
theorem stamp_handles {α R : Type} {kind : Kind} {xs : List α} {p : Handle kind → Bool}
    {q : α → Bool} {known? : α → Option R} {make : StableIndex → α → R} {counter : StableIndex}
    {known?' : Handle kind → Option R} {make' : StableIndex → Handle kind → R}
    {counter' : StableIndex}
    (agree : ∀ (h : Handle kind) (x : α), xs[h.slot]? = some x → p h = q x)
    (known : ∀ x ∈ xs, q x = false → (known? x).isSome = true)
    (same : ∀ (h : Handle kind) (x : α) (record : R), xs[h.slot]? = some x → q x = true →
      (stamp known? make counter xs)[h.slot]? = some record → known?' h = some record) :
    stamp known?' make' counter' (((List.range xs.length).map Handle.mk).filter p) =
      stamp known? make counter (xs.filter q) := by
  have zipped : (xs.zip (stamp known? make counter xs)).length = xs.length := by simp
  have places := @map_filter_handles _ kind (xs.zip (stamp known? make counter xs)) p
    (fun y => q y.1) (by
      intro h y found
      exact agree h y.1 (List.getElem?_zip_eq_some.mp found).1)
  rw [zipped] at places
  have records : ∀ h ∈ ((List.range xs.length).map Handle.mk).filter p,
      known?' h = ((xs.zip (stamp known? make counter xs))[h.slot]?).map (·.2) := by
    intro h hh
    obtain ⟨listed, passed⟩ := List.mem_filter.mp hh
    obtain ⟨i, hi, rfl⟩ := List.mem_map.mp listed
    have inside := List.mem_range.mp hi
    have inside' : i < (xs.zip (stamp known? make counter xs)).length := by omega
    have found := List.getElem?_eq_getElem inside'
    generalize (xs.zip (stamp known? make counter xs))[i] = y at found
    obtain ⟨element, record⟩ := List.getElem?_zip_eq_some.mp found
    rw [same ⟨i⟩ y.1 y.2 element (by rw [← agree ⟨i⟩ y.1 element]; exact passed) record, found]
    rfl
  have mapped : (((List.range xs.length).map Handle.mk).filter p).map known?' =
      (((xs.zip (stamp known? make counter xs)).filter fun y => q y.1).map (·.2)).map some := by
    rw [List.map_congr_left records, List.map_map]
    have outer := congrArg (List.map (Option.map Prod.snd)) places
    rw [List.map_map, List.map_map] at outer
    exact outer
  rw [stamp_filter known, stamp_of_known]
  · have whole := congrArg (List.filterMap id) mapped
    rw [List.filterMap_map, List.filterMap_map] at whole
    simpa using whole
  · intro h hh
    have there := List.mem_map_of_mem (f := known?') hh
    rw [mapped] at there
    obtain ⟨record, -, found⟩ := List.mem_map.mp there
    rw [← found]
    rfl

end GraphSplice
