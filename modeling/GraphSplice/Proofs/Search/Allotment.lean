import GraphSplice.Proofs.Search.Assignment
import Mathlib.Data.List.FinRange

/-!
Assigning edges with marks that are set and taken back. The marks and the choices are those of the
assignment told by values alone: where it is found both have grown by it, and where it is not both
are what they were before.
-/

namespace GraphSplice

universe u v w

section Report

variable {α β : Type u} {γ τ : Type v} {σ : Type w}

/-- What a computation that yields something comes to, told with a second state: what is yielded is
worked into that state, which stays as it is where nothing is yielded. -/
def report (a : τ) (put : γ → τ) : Option γ × σ → Bool × τ × σ
  | (some b, s) => (true, put b, s)
  | (none, s) => (false, a, s)

/-- A loop whose items each leave the second state or work something into it does so as a whole. -/
theorem anyInTurn_eq_report {ask : α → τ × σ → Bool × τ × σ} {f : β → σ → Option γ × σ}
    {place : α → β} {a : τ} {put : γ → τ}
    (each : ∀ x s, ask x (a, s) = report a put (f (place x) s)) (xs : List α) (s : σ) :
    anyInTurn ask xs (a, s) = report a put (firstSome f (xs.map place) s) := by
  induction xs generalizing s with
  | nil => rfl
  | cons x rest ih =>
    rw [List.map_cons, anyInTurn, firstSome, each]
    cases f (place x) s with
    | mk result s' =>
      cases result with
      | none => exact ih s'
      | some b => rfl

theorem anyInTurn_keeps {P : τ → Prop} {ask : α → τ → Bool × τ}
    (each : ∀ x t, P t → P (ask x t).2) (xs : List α) (t : τ) (ht : P t) :
    P (anyInTurn ask xs t).2 := by
  induction xs generalizing t with
  | nil => exact ht
  | cons x rest ih =>
    have kept := each x t ht
    unfold anyInTurn
    cases asked : ask x t with
    | mk ok t' =>
      rw [asked] at kept
      cases ok with
      | true => exact kept
      | false => exact ih t' kept

end Report

namespace Search

variable {σ : Type u} {I : σ → Prop} {accepts : Nat → Nat → σ → Bool × σ} {E : Nat → Nat → Prop}
  {targets taken edges chosen : List Nat}

/-- The marks of the targets that are taken. -/
def marks (targets taken : List Nat) : Vector Bool targets.length :=
  .ofFn fun i => decide (targets.get i ∈ taken)

theorem get_marks (i : Fin targets.length) :
    (marks targets taken).get i = decide (targets.get i ∈ taken) := by
  change (marks targets taken)[i] = _
  simp [marks]

theorem marks_nil : marks targets [] = .replicate targets.length false := by
  ext i hi
  simp [marks]

theorem marks_congr {taken' : List Nat} (same : ∀ t, t ∈ taken ↔ t ∈ taken') :
    marks targets taken = marks targets taken' := by
  simp only [marks, same]

/-- A target is marked at its own position only. -/
theorem set_marks (distinct : targets.Nodup) (i : Fin targets.length) :
    (marks targets taken).set i true i.isLt = marks targets (targets.get i :: taken) := by
  ext j hj
  simp only [marks, Vector.getElem_set, Vector.getElem_ofFn, List.mem_cons, List.get_eq_getElem,
    distinct.getElem_inj_iff, eq_comm (a := j), Bool.decide_or]
  split <;> simp [*]

theorem set_marks_back (distinct : targets.Nodup) {i : Fin targets.length}
    (fresh : targets.get i ∉ taken) :
    (marks targets (targets.get i :: taken)).set i false i.isLt = marks targets taken := by
  have unmarked : (marks targets taken).get i = false := by
    rw [get_marks, decide_eq_false fresh]
  rw [← set_marks distinct, Vector.set_set, ← unmarked]
  exact Vector.set_getElem_self i.isLt

/-- What one target comes to for an edge: it is marked and chosen, where the test accepts it, and
given up where the other edges cannot be assigned. -/
def allotTo (accepts : Nat → Nat → σ → Bool × σ) (targets rest : List Nat) (edge : Nat)
    (i : Fin targets.length) : Allotment targets.length × σ → Bool × Allotment targets.length × σ
  | (a, s) =>
    if a.taken.get i then (false, a, s)
    else
      match accepts edge (targets.get i) s with
      | (false, s) => (false, a, s)
      | (true, s) =>
        match allot accepts targets rest (a.choose i (targets.get i), s) with
        | (true, a, s) => (true, a, s)
        | (false, a, s) => (false, a.giveUp i, s)

theorem allot_cons (edge : Nat) (rest : List Nat) (state : Allotment targets.length × σ) :
    allot accepts targets (edge :: rest) state =
      anyInTurn (allotTo accepts targets rest edge) (List.finRange targets.length) state := rfl

/-- The allotment that an assignment comes to, told by values. -/
def allotted (targets taken chosen : List Nat) :
    Option (List Nat) × σ → Bool × Allotment targets.length × σ :=
  report ⟨marks targets taken, chosen⟩ fun more => ⟨marks targets (more ++ taken), chosen ++ more⟩

theorem allotTo_eq_allotted (distinct : targets.Nodup) {rest : List Nat}
    (others : ∀ taken chosen s, allot accepts targets rest (⟨marks targets taken, chosen⟩, s) =
      allotted targets taken chosen (assignEdges accepts targets rest taken s))
    (edge : Nat) (i : Fin targets.length) (s : σ) :
    allotTo accepts targets rest edge i (⟨marks targets taken, chosen⟩, s) =
      allotted targets taken chosen (assignTo accepts targets rest taken edge (targets.get i) s) := by
  unfold allotTo assignTo
  dsimp only
  rw [get_marks]
  by_cases used : targets.get i ∈ taken
  · rw [if_pos (decide_eq_true used), if_pos used]
    rfl
  · rw [if_neg (by simpa using used), if_neg used]
    cases accepts edge (targets.get i) s with
    | mk ok s' =>
      cases ok with
      | false => rfl
      | true =>
        dsimp only
        rw [Allotment.choose, set_marks distinct, others]
        cases assignEdges accepts targets rest (targets.get i :: taken) s' with
        | mk result s'' =>
          cases result with
          | none =>
            simp only [allotted, report, Allotment.giveUp, set_marks_back distinct used,
              List.dropLast_concat]
          | some more =>
            have same : marks targets (more ++ targets.get i :: taken) =
                marks targets (targets.get i :: more ++ taken) :=
              marks_congr fun t => by simp [or_left_comm]
            simp only [allotted, report, same, List.append_assoc, List.singleton_append]

/-- With distinct targets the marks and the choices tell the same as the values. -/
theorem allot_eq_allotted (distinct : targets.Nodup) (edges taken chosen : List Nat) (s : σ) :
    allot accepts targets edges (⟨marks targets taken, chosen⟩, s) =
      allotted targets taken chosen (assignEdges accepts targets edges taken s) := by
  induction edges generalizing taken chosen s with
  | nil => simp [allot, assignEdges, allotted, report]
  | cons edge rest ih =>
    have all : (List.finRange targets.length).map targets.get = targets :=
      List.map_get_finRange targets
    rw [allot_cons, anyInTurn_eq_report (fun i s => allotTo_eq_allotted distinct ih edge i s), all]
    rfl

/-- From nothing taken and nothing chosen. -/
theorem allot_empty (distinct : targets.Nodup) (edges : List Nat) (s : σ) :
    allot accepts targets edges (.empty targets.length, s) =
      report (.empty targets.length) (fun chosen => ⟨marks targets chosen, chosen⟩)
        (assignEdges accepts targets edges [] s) := by
  simp only [Allotment.empty, ← marks_nil, allot_eq_allotted distinct, allotted, List.append_nil,
    List.nil_append]

/-! ## Bundles -/

theorem Bundle.assign_eq {b : Bundle} (distinct : b.target.Nodup) (s : σ) :
    b.assign accepts s = assignEdges accepts b.target b.pattern [] s := by
  rw [Bundle.assign, allot_empty distinct]
  cases assignEdges accepts b.target b.pattern [] s with
  | mk result s' => cases result <;> rfl

/-- Whether or not the targets are distinct. -/
theorem allot_keeps (keeps : ∀ edge target s, I s → I (accepts edge target s).2)
    (edges : List Nat) (state : Allotment targets.length × σ) (hs : I state.2) :
    I (allot accepts targets edges state).2.2 := by
  induction edges generalizing state with
  | nil => exact hs
  | cons edge rest ih =>
    rw [allot_cons]
    refine anyInTurn_keeps (P := fun state => I state.2) (fun i state hs => ?_) _ state hs
    obtain ⟨a, s⟩ := state
    unfold allotTo
    dsimp only
    split
    · exact hs
    · have kept := keeps edge (targets.get i) s hs
      cases asked : accepts edge (targets.get i) s with
      | mk ok s' =>
        rw [asked] at kept
        cases ok with
        | false => exact kept
        | true =>
          have kept' := ih (a.choose i (targets.get i), s') kept
          dsimp only
          cases later : allot accepts targets rest (a.choose i (targets.get i), s') with
          | mk found after =>
            rw [later] at kept'
            cases found <;> exact kept'

theorem Bundle.assign_keeps (keeps : ∀ edge target s, I s → I (accepts edge target s).2)
    (b : Bundle) (s : σ) (hs : I s) : I (b.assign accepts s).2 := by
  have kept := allot_keeps keeps b.pattern (.empty b.target.length, s) hs
  unfold Bundle.assign
  cases ran : allot accepts b.target b.pattern (.empty b.target.length, s) with
  | mk found after =>
    rw [ran] at kept
    cases found <;> exact kept

/-! ## The first assignment -/

/-- The order of the targets in their list. -/
def Earlier (targets : List Nat) (t u : Nat) : Prop := targets.idxOf t < targets.idxOf u

theorem pairwise_earlier (distinct : targets.Nodup) : targets.Pairwise (Earlier targets) := by
  rw [List.pairwise_iff_getElem]
  intro i j hi hj less
  rwa [Earlier, distinct.idxOf_getElem, distinct.idxOf_getElem]

/-- With distinct targets and an exact test, whose answers depend on the two edges only, the edges
are assigned if they can be: to the first assignment in the order of the targets, edge by edge, with
the targets assigned marked and no others. If they cannot be, all is as it was at first. -/
theorem allot_exact (exact : ∀ edge target s, (accepts edge target s).1 = true ↔ E edge target)
    (distinct : targets.Nodup) (edges : List Nat) (s : σ) :
    ∃ found a s', allot accepts targets edges (.empty targets.length, s) = (found, a, s') ∧
      (found = true ↔ ∃ chosen, Assigns E targets [] edges chosen) ∧
      (found = true → AssignsFirst (Earlier targets) E targets [] edges a.chosen ∧
        ∀ i : Fin targets.length, a.taken.get i = true ↔ targets.get i ∈ a.chosen) ∧
      (found = false → a = .empty targets.length) := by
  have tells : ∀ edge target,
      Ensures (fun _ => True) (accepts edge target) (Tells True (E edge target)) :=
    fun edge target s _ => ⟨⟨(exact edge target s).mp, fun _ => (exact edge target s).mpr⟩, trivial⟩
  obtain ⟨⟨found, missing⟩, -⟩ :=
    ensures_assignEdges (pairwise_earlier distinct) [] edges tells s trivial
  rw [allot_empty distinct]
  cases result : assignEdges accepts targets edges [] s with
  | mk answer s' =>
    rw [result] at found missing
    cases answer with
    | some chosen =>
      obtain ⟨assigns, first⟩ := found chosen rfl
      refine ⟨true, ⟨marks targets chosen, chosen⟩, s', rfl, ?_, fun _ => ?_, nofun⟩
      · exact ⟨fun _ => ⟨chosen, assigns⟩, fun _ => rfl⟩
      · refine ⟨first trivial, fun i => ?_⟩
        rw [get_marks, decide_eq_true_eq]
    | none =>
      refine ⟨false, .empty targets.length, s', rfl, ⟨nofun, ?_⟩, nofun, fun _ => rfl⟩
      rintro ⟨chosen, assigns⟩
      exact absurd assigns (missing rfl trivial chosen)

/-- Counts how often it is asked. The first edge may go to 5 or 7, the second one to 5 only. -/
def fastidious (edge target asked : Nat) : Bool × Nat :=
  (decide (target = 5 ∨ (edge = 0 ∧ target = 7)), asked + 1)

/-- The first edge is assigned to 5 and, as the second one then finds no target, to 7 after all. -/
theorem allot_exact_second_choice :
    (∀ edge target asked, (fastidious edge target asked).1 = true ↔
      target = 5 ∨ (edge = 0 ∧ target = 7)) ∧ [5, 7, 9].Nodup ∧
    allot fastidious [5, 7, 9] [0, 1] (.empty 3, 0) = (true, ⟨#v[true, true, false], [7, 5]⟩, 5) ∧
    AssignsFirst (Earlier [5, 7, 9]) (fun edge target => target = 5 ∨ (edge = 0 ∧ target = 7))
      [5, 7, 9] [] [0, 1] [7, 5] := by
  have exact : ∀ edge target asked, (fastidious edge target asked).1 = true ↔
      target = 5 ∨ (edge = 0 ∧ target = 7) := fun edge target asked => decide_eq_true_iff
  have distinct : [5, 7, 9].Nodup := by decide
  have ran : allot fastidious [5, 7, 9] [0, 1] (.empty 3, 0) =
      (true, ⟨#v[true, true, false], [7, 5]⟩, 5) := by decide
  obtain ⟨found, a, asked, same, -, first, -⟩ := allot_exact exact distinct [0, 1] 0
  cases same.symm.trans ran
  exact ⟨exact, distinct, ran, (first rfl).1⟩

end Search

end GraphSplice
