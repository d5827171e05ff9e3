import GraphSplice.Search
import Mathlib.Data.List.Forall2
import Mathlib.Data.List.Lex
import Mathlib.Data.List.Nodup

/-!
Assigning pattern edges to target edges, told by values alone: the targets that are taken are handed
down, and an assignment is handed back. Whatever the test answers, an assignment that is found is
injective and was accepted. Where the test is exact, so that its answers depend on the two edges
only, the assignment found is the lexicographically first one, and none is found only if there is
none.
-/

namespace GraphSplice

universe u v w

/-- The first result that an item yields. -/
def firstSome {α : Type u} {β : Type v} {σ : Type w} (f : α → σ → Option β × σ) :
    List α → σ → Option β × σ
  | [], s => (none, s)
  | x :: xs, s =>
    match f x s with
    | (some b, s') => (some b, s')
    | (none, s') => firstSome f xs s'

/-- Assigns the pattern edges, in order, to distinct target edges that the test accepts, none of
them already taken. The first assignment in the order of the targets is found; each choice that
cannot be completed is given up. -/
def assignEdges {σ : Type u} (accepts : Nat → Nat → σ → Bool × σ) (targets : List Nat) :
    List Nat → List Nat → σ → Option (List Nat) × σ
  | [], _, s => (some [], s)
  | edge :: rest, taken, s =>
    firstSome (fun target s =>
      if target ∈ taken then (none, s)
      else
        match accepts edge target s with
        | (false, s) => (none, s)
        | (true, s) =>
          match assignEdges accepts targets rest (target :: taken) s with
          | (some chosen, s) => (some (target :: chosen), s)
          | (none, s) => (none, s)) targets s

section Ensures

variable {α : Type u} {β : Type v} {σ : Type w}

/-- From a state with `I` the computation answers as `Q` says and leaves a state with `I`. -/
def Ensures (I : σ → Prop) (c : σ → α × σ) (Q : α → Prop) : Prop :=
  ∀ s, I s → Q (c s).1 ∧ I (c s).2

variable {I : σ → Prop}

/-- The first result stands behind items that yield none. -/
theorem ensures_firstSome {f : α → σ → Option β × σ} {Q : α → β → Prop} {N : α → Prop}
    {xs : List α} (h : ∀ x ∈ xs, Ensures I (f x) fun r =>
      (∀ b, r = some b → Q x b) ∧ (r = none → N x)) :
    Ensures I (firstSome f xs) fun r =>
      (∀ b, r = some b → ∃ before x after, xs = before ++ x :: after ∧ (∀ y ∈ before, N y) ∧
        Q x b) ∧ (r = none → ∀ x ∈ xs, N x) := by
  induction xs with
  | nil => exact fun s hs => ⟨⟨nofun, nofun⟩, hs⟩
  | cons x rest ih =>
    intro s hs
    obtain ⟨⟨found, missing⟩, kept⟩ := h x List.mem_cons_self s hs
    unfold firstSome
    cases answer : f x s with
    | mk result after =>
      rw [answer] at found missing kept
      cases result with
      | some b =>
        refine ⟨⟨?_, nofun⟩, kept⟩
        intro b' same
        cases same
        exact ⟨[], x, rest, rfl, nofun, found b rfl⟩
      | none =>
        obtain ⟨⟨found', missing'⟩, kept'⟩ :=
          ih (fun y hy => h y (List.mem_cons_of_mem x hy)) after kept
        refine ⟨⟨?_, ?_⟩, kept'⟩
        · intro b same
          obtain ⟨before, y, behind, rfl, none, holds⟩ := found' b same
          refine ⟨x :: before, y, behind, rfl, ?_, holds⟩
          intro z hz
          rcases List.mem_cons.mp hz with rfl | inside
          · exact missing rfl
          · exact none z inside
        · intro none y hy
          rcases List.mem_cons.mp hy with rfl | inside
          · exact missing rfl
          · exact missing' none y inside

end Ensures

namespace Search

variable {σ : Type u} {I : σ → Prop} {accepts : Nat → Nat → σ → Bool × σ} {E : Nat → Nat → Prop}
  {targets taken edges chosen : List Nat}

/-- Distinct targets are chosen for the edges, each accepted for its edge and none taken before. -/
structure Assigns (E : Nat → Nat → Prop) (targets taken edges chosen : List Nat) : Prop where
  each : List.Forall₂ (fun edge target => target ∈ targets ∧ E edge target) edges chosen
  nodup : chosen.Nodup
  free : ∀ target ∈ chosen, target ∉ taken

namespace Assigns

theorem nil_iff : Assigns E targets taken [] chosen ↔ chosen = [] := by
  constructor
  · intro h
    cases h.each
    rfl
  · rintro rfl
    exact ⟨.nil, .nil, nofun⟩

theorem cons_iff {edge : Nat} : Assigns E targets taken (edge :: edges) chosen ↔
    ∃ target rest, chosen = target :: rest ∧ target ∈ targets ∧ E edge target ∧ target ∉ taken ∧
      Assigns E targets (target :: taken) edges rest := by
  constructor
  · rintro ⟨each, nodup, free⟩
    cases each with
    | @cons _ target _ rest first each =>
      obtain ⟨fresh, nodup⟩ := List.nodup_cons.mp nodup
      refine ⟨target, rest, rfl, first.1, first.2, free target List.mem_cons_self, each, nodup, ?_⟩
      intro other mem taken'
      rcases List.mem_cons.mp taken' with rfl | before
      · exact fresh mem
      · exact free other (List.mem_cons_of_mem _ mem) before
  · rintro ⟨target, rest, rfl, inside, accepted, fresh, each, nodup, free⟩
    refine ⟨.cons ⟨inside, accepted⟩ each, List.nodup_cons.mpr ⟨?_, nodup⟩, ?_⟩
    · exact fun mem => free target mem List.mem_cons_self
    · intro other mem
      rcases List.mem_cons.mp mem with rfl | later
      · exact fresh
      · exact fun before => free other later (List.mem_cons_of_mem _ before)

theorem length_eq (h : Assigns E targets taken edges chosen) : chosen.length = edges.length :=
  h.each.length_eq.symm

/-- Every edge of the bundle has its target. -/
theorem exists_target (h : Assigns E targets taken edges chosen) {k : Nat} (hk : k ∈ edges) :
    ∃ e, (k, e) ∈ edges.zip chosen := by
  obtain ⟨n, found⟩ := List.getElem?_of_mem hk
  have less : n < chosen.length := by
    rw [h.length_eq]
    exact (List.getElem?_eq_some_iff.mp found).1
  exact ⟨chosen[n], List.mem_of_getElem? (List.getElem?_zip_eq_some.mpr
    ⟨found, List.getElem?_eq_getElem less⟩)⟩

end Assigns

/-- Of all assignments this one is the first in the order `r` of the targets. -/
structure AssignsFirst (r : Nat → Nat → Prop) (E : Nat → Nat → Prop)
    (targets taken edges chosen : List Nat) : Prop extends
    Assigns E targets taken edges chosen where
  first : ∀ other, Assigns E targets taken edges other → other = chosen ∨ List.Lex r chosen other

theorem AssignsFirst.nil (r : Nat → Nat → Prop) :
    AssignsFirst r E targets taken [] [] :=
  ⟨Assigns.nil_iff.mpr rfl, fun _ h => .inl (Assigns.nil_iff.mp h)⟩

/-- Where no target before the first one can be completed, the first one is completed first. -/
theorem AssignsFirst.cons {r : Nat → Nat → Prop} {edge target : Nat} {before after : List Nat}
    (ordered : (before ++ target :: after).Pairwise r)
    (none : ∀ t ∈ before, ∀ rest, ¬ Assigns E (before ++ target :: after) taken (edge :: edges)
      (t :: rest))
    (accepted : E edge target) (fresh : target ∉ taken)
    (rest : AssignsFirst r E (before ++ target :: after) (target :: taken) edges chosen) :
    AssignsFirst r E (before ++ target :: after) taken (edge :: edges) (target :: chosen) := by
  refine ⟨Assigns.cons_iff.mpr ⟨target, chosen, rfl, by simp, accepted, fresh, rest.toAssigns⟩, ?_⟩
  intro other h
  obtain ⟨t, more, rfl, inside, -, -, later⟩ := Assigns.cons_iff.mp h
  rcases List.mem_append.mp inside with early | late
  · exact absurd h (none t early more)
  · rcases List.mem_cons.mp late with rfl | late
    · rcases rest.first more later with rfl | greater
      · exact .inl rfl
      · exact .inr (.cons greater)
    · have behind := (List.pairwise_append.mp ordered).2.1
      exact .inr (.rel ((List.pairwise_cons.mp behind).1 t late))

/-- A test tells of `E` where its answer implies it, and, if it is exact, is implied by it. -/
def Tells (exact E : Prop) (ok : Bool) : Prop := (ok = true → E) ∧ (exact → E → ok = true)

/-- What one target yields for an edge: it is taken, where the test accepts it, and the other edges
are assigned. -/
def assignTo (accepts : Nat → Nat → σ → Bool × σ) (targets rest taken : List Nat)
    (edge target : Nat) (s : σ) : Option (List Nat) × σ :=
  if target ∈ taken then (none, s)
  else
    match accepts edge target s with
    | (false, s) => (none, s)
    | (true, s) =>
      match assignEdges accepts targets rest (target :: taken) s with
      | (some chosen, s) => (some (target :: chosen), s)
      | (none, s) => (none, s)

theorem assignEdges_cons (edge : Nat) (rest taken : List Nat) :
    assignEdges accepts targets (edge :: rest) taken =
      firstSome (assignTo accepts targets rest taken edge) targets := rfl

theorem Assigns.cons_cons_iff {edge target : Nat} :
    Assigns E targets taken (edge :: edges) (target :: chosen) ↔
      target ∈ targets ∧ E edge target ∧ target ∉ taken ∧
        Assigns E targets (target :: taken) edges chosen := by
  rw [cons_iff]
  constructor
  · rintro ⟨t, rest, same, h⟩
    cases same
    exact h
  · exact fun h => ⟨target, chosen, rfl, h⟩

/-- What a target yields is as good as what the other edges are assigned after it. -/
theorem ensures_assignTo {exact : Prop} {r : Nat → Nat → Prop} {rest : List Nat}
    (tells : ∀ edge target, Ensures I (accepts edge target) (Tells exact (E edge target)))
    (edge target : Nat)
    (assigned : Ensures I (assignEdges accepts targets rest (target :: taken)) fun result =>
      (∀ chosen, result = some chosen → Assigns E targets (target :: taken) rest chosen ∧
        (exact → AssignsFirst r E targets (target :: taken) rest chosen)) ∧
      (result = none → exact → ∀ chosen, ¬ Assigns E targets (target :: taken) rest chosen)) :
    Ensures I (assignTo accepts targets rest taken edge target) fun result =>
      (∀ chosen, result = some chosen → ∃ more, chosen = target :: more ∧ E edge target ∧
        target ∉ taken ∧ Assigns E targets (target :: taken) rest more ∧
        (exact → AssignsFirst r E targets (target :: taken) rest more)) ∧
      (result = none → exact → ∀ more,
        ¬ Assigns E targets taken (edge :: rest) (target :: more)) := by
  intro s hs
  unfold assignTo
  by_cases used : target ∈ taken
  · rw [if_pos used]
    refine ⟨⟨by simp, ?_⟩, hs⟩
    intro _ _ more h
    exact (Assigns.cons_cons_iff.mp h).2.2.1 used
  · rw [if_neg used]
    obtain ⟨⟨sound, complete⟩, kept⟩ := tells edge target s hs
    cases asked : accepts edge target s with
    | mk ok s' =>
      rw [asked] at sound complete kept
      cases ok with
      | false =>
        refine ⟨⟨by simp, ?_⟩, kept⟩
        intro _ isExact more h
        exact Bool.false_ne_true (complete isExact (Assigns.cons_cons_iff.mp h).2.1)
      | true =>
        obtain ⟨⟨found, missing⟩, kept'⟩ := assigned s' kept
        dsimp only
        cases later : assignEdges accepts targets rest (target :: taken) s' with
        | mk result s'' =>
          rw [later] at found missing kept'
          cases result with
          | some more =>
            refine ⟨⟨?_, by simp⟩, kept'⟩
            intro chosen same
            cases same
            exact ⟨more, rfl, sound rfl, used, found more rfl⟩
          | none =>
            refine ⟨⟨by simp, ?_⟩, kept'⟩
            intro _ isExact more h
            exact missing rfl isExact _ (Assigns.cons_cons_iff.mp h).2.2.2

/-- What is found is an assignment. With an exact test it is the first one, and it is not missed. -/
theorem ensures_assignEdges {exact : Prop} {r : Nat → Nat → Prop} (ordered : targets.Pairwise r)
    (taken edges : List Nat)
    (tells : ∀ edge target, Ensures I (accepts edge target) (Tells exact (E edge target))) :
    Ensures I (assignEdges accepts targets edges taken) fun result =>
      (∀ chosen, result = some chosen → Assigns E targets taken edges chosen ∧
        (exact → AssignsFirst r E targets taken edges chosen)) ∧
      (result = none → exact → ∀ chosen, ¬ Assigns E targets taken edges chosen) := by
  induction edges generalizing taken with
  | nil =>
    intro s hs
    refine ⟨⟨?_, by simp [assignEdges]⟩, hs⟩
    intro chosen same
    cases same
    exact ⟨Assigns.nil_iff.mpr rfl, fun _ => .nil r⟩
  | cons edge rest ih =>
    intro s hs
    rw [assignEdges_cons]
    obtain ⟨⟨found, missing⟩, kept⟩ := ensures_firstSome
      (fun target _ => ensures_assignTo tells edge target (ih (target :: taken))) s hs
    refine ⟨⟨?_, ?_⟩, kept⟩
    · intro chosen same
      obtain ⟨before, target, after, split, none, more, rfl, accepted, fresh, assigns, first⟩ :=
        found chosen same
      refine ⟨Assigns.cons_cons_iff.mpr ⟨by simp [split], accepted, fresh, assigns⟩, ?_⟩
      intro isExact
      subst split
      exact .cons ordered (fun t ht => none t ht isExact) accepted fresh (first isExact)
    · intro same isExact chosen h
      obtain ⟨target, more, rfl, inside, -⟩ := Assigns.cons_iff.mp h
      exact missing same target inside isExact more h

end Search

end GraphSplice
