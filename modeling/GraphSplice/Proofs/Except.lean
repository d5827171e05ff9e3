import Mathlib.Data.List.Forall2

/-!
Computations that may fail, run over lists.
-/

namespace GraphSplice

universe u v
variable {ε : Type u} {α β : Type v}

/-- Two checks that both pass. -/
theorem bind_ok {x : Except ε α} {f : α → Except ε β} {b : β} (h : (x >>= f) = .ok b) :
    ∃ a, x = .ok a ∧ f a = .ok b := by
  cases x with
  | error e => cases h
  | ok a => exact ⟨a, rfl, h⟩

theorem exists_of_isOk {x : Except ε α} (h : x.isOk = true) : ∃ a, x = .ok a := by
  cases x with
  | error e => cases h
  | ok a => exact ⟨a, rfl⟩

theorem isOk_iff {x : Except ε α} : x.isOk = true ↔ ∃ a, x = .ok a := by
  refine ⟨exists_of_isOk, ?_⟩
  rintro ⟨a, rfl⟩
  rfl

/-- A result that passes a check, found by running the computation. -/
theorem exists_of_check {x : Except ε α} {P : α → Prop} [DecidablePred P]
    (h : (match x with | .ok a => decide (P a) | .error _ => false) = true) :
    ∃ a, x = .ok a ∧ P a := by
  cases x with
  | error e => cases h
  | ok a => exact ⟨a, rfl, of_decide_eq_true h⟩

/-- An error found by running the computation. -/
theorem eq_error_of_check [DecidableEq ε] {x : Except ε α} {e : ε}
    (h : (match x with | .ok _ => false | .error e' => decide (e' = e)) = true) :
    x = .error e := by
  cases x with
  | error e' => exact congrArg _ (of_decide_eq_true h)
  | ok a => cases h

/-- One of two checks fails. -/
theorem bind_error {x : Except ε α} {f : α → Except ε β} {e : ε} (h : (x >>= f) = .error e) :
    x = .error e ∨ ∃ a, x = .ok a ∧ f a = .error e := by
  cases x with
  | error e' =>
    cases h
    exact .inl rfl
  | ok a => exact .inr ⟨a, rfl, h⟩

theorem forall₂_of_mapM {f : α → Except ε β} {xs : List α} {ys : List β}
    (h : xs.mapM f = .ok ys) : List.Forall₂ (fun x y => f x = .ok y) xs ys := by
  induction xs generalizing ys with
  | nil =>
    cases h
    exact .nil
  | cons x rest ih =>
    rw [List.mapM_cons] at h
    obtain ⟨y, hy, h⟩ := bind_ok h
    obtain ⟨rest', hrest, h⟩ := bind_ok h
    cases h
    exact .cons hy (ih hrest)

theorem mapM_of_forall₂ {f : α → Except ε β} {xs : List α} {ys : List β}
    (h : List.Forall₂ (fun x y => f x = .ok y) xs ys) : xs.mapM f = .ok ys := by
  induction h with
  | nil => rfl
  | cons first _ ih =>
    rw [List.mapM_cons, first, ih]
    rfl

/-- A run over a list fails in one of its steps. -/
theorem exists_error_of_mapM {f : α → Except ε β} {xs : List α} {e : ε}
    (h : xs.mapM f = .error e) : ∃ x ∈ xs, f x = .error e := by
  induction xs with
  | nil => cases h
  | cons x rest ih =>
    rw [List.mapM_cons] at h
    rcases bind_error h with first | ⟨y, -, h⟩
    · exact ⟨x, List.mem_cons_self, first⟩
    · rcases bind_error h with later | ⟨ys, -, h⟩
      · obtain ⟨z, hz, failed⟩ := ih later
        exact ⟨z, List.mem_cons_of_mem x hz, failed⟩
      · cases h

theorem exists_error_of_foldlM {f : β → α → Except ε β} {xs : List α} {b : β} {e : ε}
    (h : xs.foldlM f b = .error e) : ∃ b', ∃ x ∈ xs, f b' x = .error e := by
  induction xs generalizing b with
  | nil => cases h
  | cons x rest ih =>
    rw [List.foldlM_cons] at h
    rcases bind_error h with first | ⟨next, -, later⟩
    · exact ⟨b, x, List.mem_cons_self, first⟩
    · obtain ⟨b', y, hy, failed⟩ := ih later
      exact ⟨b', y, List.mem_cons_of_mem x hy, failed⟩

theorem exists_error_of_forM {f : α → Except ε PUnit} {xs : List α} {e : ε}
    (h : xs.forM f = .error e) : ∃ x ∈ xs, f x = .error e := by
  induction xs with
  | nil => cases h
  | cons x rest ih =>
    change (f x >>= fun _ => rest.forM f) = .error e at h
    rcases bind_error h with first | ⟨_, -, later⟩
    · exact ⟨x, List.mem_cons_self, first⟩
    · obtain ⟨y, hy, failed⟩ := ih later
      exact ⟨y, List.mem_cons_of_mem x hy, failed⟩

/-- What every step keeps, a whole run keeps. -/
theorem foldlM_keeps {f : β → α → Except ε β} {P : β → Prop}
    (step : ∀ b a b', P b → f b a = .ok b' → P b') {xs : List α} {b b' : β} (start : P b)
    (h : xs.foldlM f b = .ok b') : P b' := by
  induction xs generalizing b with
  | nil =>
    cases h
    exact start
  | cons x rest ih =>
    rw [List.foldlM_cons] at h
    obtain ⟨next, first, later⟩ := bind_ok h
    exact ih (step b x next start first) later

theorem forall_of_forM {f : α → Except ε PUnit} {xs : List α} {u : PUnit}
    (h : xs.forM f = .ok u) : ∀ x ∈ xs, f x = .ok ⟨⟩ := by
  induction xs with
  | nil => simp
  | cons x rest ih =>
    change (f x >>= fun _ => rest.forM f) = .ok u at h
    obtain ⟨_, first, later⟩ := bind_ok h
    intro y hy
    rcases List.mem_cons.mp hy with rfl | hy
    · exact first
    · exact ih later y hy

theorem forM_ok_of_forall {f : α → Except ε PUnit} {xs : List α}
    (h : ∀ x ∈ xs, f x = .ok ⟨⟩) : xs.forM f = .ok ⟨⟩ := by
  induction xs with
  | nil => rfl
  | cons x rest ih =>
    change (f x >>= fun _ => rest.forM f) = .ok ⟨⟩
    rw [h x List.mem_cons_self]
    exact ih fun y hy => h y (List.mem_cons_of_mem x hy)

theorem mapM_some_of_forall {f : α → Option β} {g : α → β} {xs : List α}
    (h : ∀ x ∈ xs, f x = some (g x)) : xs.mapM f = some (xs.map g) := by
  induction xs with
  | nil => rfl
  | cons x rest ih =>
    rw [List.mapM_cons, h x List.mem_cons_self, ih fun y hy => h y (List.mem_cons_of_mem _ hy)]
    rfl

theorem forall₂_getElem? {R : α → β → Prop} {xs : List α} {ys : List β} (h : List.Forall₂ R xs ys)
    (i : Nat) : (∀ x, xs[i]? = some x → ∃ y, ys[i]? = some y ∧ R x y) ∧
      ∀ y, ys[i]? = some y → ∃ x, xs[i]? = some x ∧ R x y := by
  induction h generalizing i with
  | nil => simp
  | @cons x y xs ys related rest ih =>
    cases i with
    | zero => simp [related]
    | succ i => simpa using ih i

theorem forall₂_of_getElem? {R : α → β → Prop} {xs : List α} {ys : List β}
    (length : xs.length = ys.length)
    (each : ∀ (i : Nat) (x : α) (y : β), xs[i]? = some x → ys[i]? = some y → R x y) :
    List.Forall₂ R xs ys := by
  rw [List.forall₂_iff_get]
  exact ⟨length, fun i hx hy =>
    each i _ _ (List.getElem?_eq_getElem hx) (List.getElem?_eq_getElem hy)⟩

theorem exists_forall₂ {R : α → β → Prop} {xs : List α} (h : ∀ x ∈ xs, ∃ y, R x y) :
    ∃ ys, List.Forall₂ R xs ys := by
  induction xs with
  | nil => exact ⟨[], .nil⟩
  | cons x rest ih =>
    obtain ⟨y, first⟩ := h x List.mem_cons_self
    obtain ⟨ys, later⟩ := ih fun x' hx' => h x' (List.mem_cons_of_mem x hx')
    exact ⟨y :: ys, .cons first later⟩

theorem exists_mapM_of_forall {f : α → Except ε β} {xs : List α}
    (each : ∀ x ∈ xs, ∃ y, f x = .ok y) : ∃ ys, xs.mapM f = .ok ys := by
  obtain ⟨ys, related⟩ := exists_forall₂ each
  exact ⟨ys, mapM_of_forall₂ related⟩

/-- What holds of the pairs of one list holds of those of a related list. -/
theorem pairwise_of_forall₂ {R : α → β → Prop} {S : α → α → Prop} {S' : β → β → Prop}
    {xs : List α} {ys : List β} (h : List.Forall₂ R xs ys) (pairs : xs.Pairwise S)
    (step : ∀ x x' y y', R x y → R x' y' → S x x' → S' y y') : ys.Pairwise S' := by
  induction h with
  | nil => exact .nil
  | @cons x y xs ys first rest ih =>
    obtain ⟨ahead, pairs⟩ := List.pairwise_cons.mp pairs
    refine List.pairwise_cons.mpr ⟨?_, ih pairs⟩
    intro y' hy'
    obtain ⟨i, found⟩ := List.getElem?_of_mem hy'
    obtain ⟨x', hx', related⟩ := (forall₂_getElem? rest i).2 y' found
    exact step x x' y y' first related (ahead x' (List.mem_of_getElem? hx'))

/-- Choices made one after the other, each in view of those before it. -/
theorem foldlM_choose_iff {pick : List β → α → Option β} {xs : List α} {start ys : List β} :
    xs.foldlM (fun chosen x => (pick chosen x).map fun y => chosen ++ [y]) start = some ys ↔
      ∃ rest, ys = start ++ rest ∧ rest.length = xs.length ∧
        ∀ (j : Nat) (x : α), xs[j]? = some x →
          ∃ y, rest[j]? = some y ∧ pick (start ++ rest.take j) x = some y := by
  induction xs generalizing start with
  | nil =>
    simp only [List.foldlM_nil, List.length_nil, List.length_eq_zero_iff]
    constructor
    · rintro ⟨⟩
      exact ⟨[], by simp, rfl, by simp⟩
    · rintro ⟨rest, rfl, rfl, -⟩
      simp
  | cons x xs ih =>
    rw [List.foldlM_cons]
    constructor
    · intro h
      obtain ⟨_, picked, h⟩ := Option.bind_eq_some_iff.mp h
      obtain ⟨y, first, rfl⟩ := Option.map_eq_some_iff.mp picked
      obtain ⟨rest, rfl, length, each⟩ := ih.mp h
      refine ⟨y :: rest, by simp, by simp [length], ?_⟩
      intro j x' found
      cases j with
      | zero =>
        cases found
        exact ⟨y, rfl, by simpa using first⟩
      | succ j => simpa using each j x' found
    · rintro ⟨rest, rfl, length, each⟩
      obtain ⟨y, head, first⟩ := each 0 x rfl
      cases rest with
      | nil => cases head
      | cons y' rest =>
        cases head
        have step : (pick start x).map (fun z => start ++ [z]) = some (start ++ [y]) := by
          rw [List.take_zero, List.append_nil] at first
          rw [first, Option.map_some]
        refine Option.bind_eq_some_iff.mpr
          ⟨_, step, ih.mpr ⟨rest, by simp, by simpa using length, ?_⟩⟩
        intro j x' found
        simpa using each (j + 1) x' found

theorem toOption_eq_some_iff {x : Except ε α} {a : α} : x.toOption = some a ↔ x = .ok a := by
  cases x <;> simp [Except.toOption]

/-- What a run yields, whatever its errors say. -/
theorem toOption_foldlM {f : β → α → Except ε β} {g : β → α → Option β}
    (step : ∀ b a, (f b a).toOption = g b a) (xs : List α) (b : β) :
    (xs.foldlM f b).toOption = xs.foldlM g b := by
  induction xs generalizing b with
  | nil => rfl
  | cons a xs ih =>
    rw [List.foldlM_cons, List.foldlM_cons, ← step]
    cases f b a with
    | error e => rfl
    | ok next => exact ih next

end GraphSplice
