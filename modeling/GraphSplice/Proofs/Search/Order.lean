import GraphSplice.Search
import Mathlib.Data.List.Nodup
import Mathlib.Data.List.Perm.Subperm
import Mathlib.Data.List.Range

/-!
The order in which a search visits the vertices of a pattern: each vertex once, and an anchor has
been placed before.
-/

namespace GraphSplice.Search

variable {p : Pattern}

/-- The visits place what has not been placed yet, one vertex after the other. -/
inductive Schedule (p : Pattern) : List Nat → List Visit → Prop
  | done {placed : List Nat} : (∀ v < p.order, v ∈ placed) → Schedule p placed []
  | next {placed : List Nat} {x : Visit} {rest : List Visit} : x.vertex < p.order →
      x.vertex ∉ placed →
      (∀ u, x.anchor = some u → u ∈ placed ∧ p.edgesBetween u x.vertex ≠ []) →
      Schedule p (x.vertex :: placed) rest → Schedule p placed (x :: rest)

theorem nextVertex?_spec (p : Pattern) (placed : List Visit) :
    match nextVertex? p placed with
    | none => ∀ v < p.order, v ∈ placed.map (·.vertex)
    | some v => v < p.order ∧ v ∉ placed.map (·.vertex) := by
  unfold nextVertex?
  generalize candidates : ((List.range p.order).filter fun v => v ∉ placed.map (·.vertex)) = xs
  have member : ∀ v, v ∈ xs ↔ v < p.order ∧ v ∉ placed.map (·.vertex) := by
    intro v
    rw [← candidates, List.mem_filter, List.mem_range, decide_eq_true_eq]
  -- the best candidate so far stays one, and there is one as soon as any has been met
  have best : ∀ (ys : List Nat) (b : Option Nat), (∀ v ∈ ys, v ∈ xs) → (∀ v, b = some v → v ∈ xs) →
      let c := ys.foldl (fun best v =>
        match best with
        | none => some v
        | some b => if Before p placed v b then some v else some b) b
      (∀ v, c = some v → v ∈ xs) ∧ (c = none → b = none ∧ ys = []) := by
    intro ys
    induction ys with
    | nil => exact fun b _ hb => ⟨hb, fun none => ⟨none, rfl⟩⟩
    | cons y ys ih =>
      intro b hys hb
      have first := hys y List.mem_cons_self
      have step := ih (match b with
        | none => some y
        | some b => if Before p placed y b then some y else some b)
        (fun v hv => hys v (List.mem_cons_of_mem y hv))
      cases b with
      | none =>
        obtain ⟨inside, missing⟩ := step (by simpa using first)
        exact ⟨inside, fun none => absurd (missing none).1 nofun⟩
      | some b =>
        obtain ⟨inside, missing⟩ := step (by
          intro v
          dsimp only
          split
          · rintro ⟨⟩
            exact first
          · rintro ⟨⟩
            exact hb b rfl)
        refine ⟨inside, fun none => ?_⟩
        have impossible := (missing none).1
        dsimp only at impossible
        split at impossible <;> cases impossible
  obtain ⟨inside, missing⟩ := best xs none (fun v hv => hv) nofun
  cases found : xs.foldl (fun best v =>
    match best with
    | none => some v
    | some b => if Before p placed v b then some v else some b) none with
  | none =>
    intro v hv
    by_contra free
    have here := (member v).mpr ⟨hv, free⟩
    rw [(missing found).2] at here
    cases here
  | some v => exact (member v).mp (inside v found)

theorem anchor?_eq_some {placed : List Visit} {u v : Nat} (h : anchor? p placed v = some u) :
    u ∈ placed.map (·.vertex) ∧ p.edgesBetween u v ≠ [] :=
  ⟨List.mem_of_find?_eq_some h, by simpa using List.find?_some h⟩

/-- Visits that may be continued by any schedule for the vertices that they leave. -/
structure Begun (p : Pattern) (visits : List Visit) : Prop where
  nodup : (visits.map (·.vertex)).Nodup
  inside : ∀ x ∈ visits, x.vertex < p.order
  continues : ∀ rest, Schedule p (visits.map (·.vertex)).reverse rest →
    Schedule p [] (visits ++ rest)

theorem Begun.nil : Begun p [] := ⟨.nil, nofun, fun _ h => h⟩

theorem Begun.snoc {visits : List Visit} (begun : Begun p visits) {v : Nat}
    (found : nextVertex? p visits = some v) :
    Begun p (visits ++ [⟨v, anchor? p visits v⟩]) := by
  have spec := nextVertex?_spec p visits
  rw [found] at spec
  obtain ⟨inside, fresh⟩ := spec
  constructor
  · rw [List.map_append, List.nodup_append]
    refine ⟨begun.nodup, List.nodup_singleton _, ?_⟩
    intro u hu w hw
    rw [List.map_singleton, List.mem_singleton] at hw
    intro same
    obtain rfl : u = v := same.trans hw
    exact fresh hu
  · intro x hx
    rcases List.mem_append.mp hx with before | last
    · exact begun.inside x before
    · rw [List.mem_singleton.mp last]
      exact inside
  · intro rest schedule
    rw [List.append_assoc]
    apply begun.continues
    rw [List.map_append, List.reverse_append] at schedule
    refine .next inside (by simpa using fresh) ?_ schedule
    intro u anchor
    rw [List.mem_reverse]
    exact anchor?_eq_some anchor

/-- Visits of as many vertices as there are leave none. -/
theorem Begun.covers {visits : List Visit} (begun : Begun p visits)
    (length : visits.length = p.order) : ∀ v < p.order, v ∈ visits.map (·.vertex) := by
  have subset : visits.map (·.vertex) ⊆ List.range p.order := by
    intro v hv
    obtain ⟨x, hx, rfl⟩ := List.mem_map.mp hv
    exact List.mem_range.mpr (begun.inside x hx)
  have perm := (List.subperm_of_subset begun.nodup subset).perm_of_length_le (by simp [length])
  intro v hv
  exact perm.mem_iff.mpr (List.mem_range.mpr hv)

/-- One further visit, if there is a vertex left. -/
def step (p : Pattern) (placed : List Visit) : List Visit :=
  match nextVertex? p placed with
  | none => placed
  | some v => placed ++ [⟨v, anchor? p placed v⟩]

theorem Begun.step {visits : List Visit} (begun : Begun p visits) (few : visits.length < p.order) :
    Begun p (step p visits) ∧ (Search.step p visits).length = visits.length + 1 := by
  unfold Search.step
  cases found : nextVertex? p visits with
  | some v => exact ⟨begun.snoc found, by simp⟩
  | none =>
    have all := nextVertex?_spec p visits
    rw [found] at all
    have subset : List.range p.order ⊆ visits.map (·.vertex) := fun v hv =>
      all v (List.mem_range.mp hv)
    have count := (List.subperm_of_subset List.nodup_range subset).length_le
    rw [List.length_range, List.length_map] at count
    omega

theorem schedule_visitOrder (p : Pattern) : Schedule p [] (visitOrder p) := by
  have run : ∀ (xs : List Nat) (visits : List Visit), Begun p visits →
      visits.length + xs.length = p.order →
      let all := xs.foldl (fun placed _ => step p placed) visits
      Begun p all ∧ all.length = p.order := by
    intro xs
    induction xs with
    | nil => exact fun visits begun count => ⟨begun, count⟩
    | cons x xs ih =>
      intro visits begun count
      rw [List.length_cons] at count
      obtain ⟨begun', longer⟩ := begun.step (by omega)
      exact ih _ begun' (by rw [longer]; omega)
  obtain ⟨begun, count⟩ := run (List.range p.order) [] .nil (by simp)
  have schedule := begun.continues [] (.done fun v hv =>
    List.mem_reverse.mpr (begun.covers count v hv))
  rwa [List.append_nil] at schedule

end GraphSplice.Search
