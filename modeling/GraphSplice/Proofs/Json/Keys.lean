import GraphSplice.Proofs.Ascending
import GraphSplice.Proofs.Json.Codec
import Mathlib.Data.String.Basic

/-!
The keys of a value that is read. A field goes into an object at the place of its key, so the keys
of every object on the reader's stack ascend, and so do those of the value that is read.
-/

namespace GraphSplice.Json

theorem keysAscend_insertEntry {key : String} {value : Json} {fields : List (String × Json)}
    (ascending : KeysAscend (.object fields)) :
    KeysAscend (.object (Ascending.insertEntry key value fields)) := by
  change ((Ascending.insertEntry key value fields).map (·.1)).Pairwise (· < ·)
  rw [Ascending.keys_insertEntry]
  exact Ascending.insert_pairwise ascending

namespace Reader

variable {α β σ : Type} {P : α → Prop} {Q : β → Prop}

/-- Whatever the input, what the reader answers has the property. -/
def Answers (r : Reader α) (P : α → Prop) : Prop := ∀ input x rest, r input = .ok (x, rest) → P x

theorem answers_pure {x : α} (h : P x) : Answers (Pure.pure x) P := by
  intro input y rest answered
  cases answered
  exact h

theorem answers_fail (fault : Fault) : Answers (fail fault) P := nofun

theorem Answers.bind {r : Reader α} {f : α → Reader β} (before : r.Answers P)
    (after : ∀ x, P x → (f x).Answers Q) : (r >>= f).Answers Q := by
  intro input y rest answered
  change Reader.bind r f input = _ at answered
  unfold Reader.bind at answered
  split at answered
  · cases answered
  · next x middle first =>
    split at answered
    · cases answered
    · next z last second =>
      cases answered
      exact after x (before input x middle first) middle.1 _ last second

/-- What comes before does not matter. -/
theorem Answers.of_bind {r : Reader α} {f : α → Reader β} (after : ∀ x, (f x).Answers Q) :
    (r >>= f).Answers Q :=
  .bind (P := fun _ => True) (fun _ _ _ _ => trivial) fun x _ => after x

/-- Rounds that keep an invariant lead from it to what the last one answers. -/
theorem answers_loop {I : σ → Prop} {round : σ → Reader (σ ⊕ α)}
    (step : ∀ s, I s → (round s).Answers (Sum.elim I P)) {s : σ} (start : I s) :
    (loop round s).Answers P := by
  intro input
  -- The rounds consume the input, so the induction is on what they leave of it.
  induction s, input using loop.induct round with
  | case1 s input fault failed =>
    intro x rest answered
    rw [loop, failed] at answered
    cases answered
  | case2 s input y rest' last =>
    intro x rest answered
    rw [loop, last] at answered
    cases answered
    exact step s start input _ _ last
  | case3 s input s' rest' shorter round consumed fault failed ih =>
    intro x rest answered
    rw [loop, round] at answered
    simp only [consumed, dif_pos, failed] at answered
    cases answered
  | case4 s input s' rest' shorter round consumed y rest'' others ih =>
    intro x rest answered
    rw [loop, round] at answered
    simp only [consumed, dif_pos, others] at answered
    cases answered
    exact ih (step s start input _ _ round) _ _ others
  | case5 s input s' rest' shorter round stuck =>
    intro x rest answered
    rw [loop, round] at answered
    simp only [stuck, dif_neg, not_false_eq_true] at answered
    cases answered

theorem Answers.run {r : Reader α} (h : r.Answers P) {input : Bytes} {x : α}
    (answered : r.run input = .ok x) : P x := by
  unfold Reader.run at answered
  split at answered
  · cases answered
  · next y rest read =>
    split at answered
    · cases answered
      exact h input _ rest read
    · cases answered

end Reader

/-! ## The reader of values -/

/-- The keys of an open object ascend so far. -/
def Frame.KeysAscend : Frame → Prop
  | .array _ => True
  | .object fields _ => Json.KeysAscend (.object fields)

def Goal.KeysAscend : Goal → Prop
  | .value => True
  | .after v => v.KeysAscend

/-- In what is open and in what was read last, keys ascend. -/
structure Progress.KeysAscend (p : Progress) : Prop where
  goal : p.goal.KeysAscend
  stack : ∀ frame ∈ p.stack, frame.KeysAscend

namespace Reader

variable {stack : List Frame}

/-- Going on to a value inside a frame. -/
theorem answers_open {frame : Frame} (ascending : frame.KeysAscend)
    (outer : ∀ frame ∈ stack, frame.KeysAscend) :
    Answers (Pure.pure ⟨.value, frame :: stack⟩) Progress.KeysAscend :=
  answers_pure ⟨trivial, List.forall_mem_cons.mpr ⟨ascending, outer⟩⟩

/-- Going on after a value. -/
theorem answers_after {value : Json} (ascending : value.KeysAscend)
    (outer : ∀ frame ∈ stack, frame.KeysAscend) :
    Answers (Pure.pure ⟨.after value, stack⟩) Progress.KeysAscend :=
  answers_pure ⟨ascending, outer⟩

theorem answers_scalarNumber (m : Manner) (negative : Bool) :
    (scalarNumber m negative).Answers KeysAscend := by
  unfold scalarNumber
  split
  · exact .of_bind fun n => answers_pure (P := KeysAscend) (x := Json.number n) trivial
  · exact .of_bind fun _ => answers_pure (P := KeysAscend) (x := Json.null) trivial

theorem answers_scalar (m : Manner) (b : UInt8) : (scalar m b).Answers KeysAscend := by
  unfold scalar
  split_ifs
  · exact .of_bind fun _ => answers_pure (P := KeysAscend) (x := Json.null) trivial
  · exact .of_bind fun _ => answers_pure (P := KeysAscend) (x := Json.bool true) trivial
  · exact .of_bind fun _ => answers_pure (P := KeysAscend) (x := Json.bool false) trivial
  · exact .of_bind fun _ => .of_bind fun s =>
      answers_pure (P := KeysAscend) (x := Json.text s) trivial
  · exact .of_bind fun _ => answers_scalarNumber m true
  · exact answers_scalarNumber m false
  · exact answers_fail _

theorem answers_openArray (outer : ∀ frame ∈ stack, frame.KeysAscend) :
    (openArray stack).Answers Progress.KeysAscend := by
  refine .of_bind fun _ => .of_bind fun mark => ?_
  split
  · exact .of_bind fun _ => answers_after trivial outer
  · exact answers_open trivial outer

theorem answers_openObject (m : Manner) (outer : ∀ frame ∈ stack, frame.KeysAscend) :
    (openObject m stack).Answers Progress.KeysAscend := by
  refine .of_bind fun _ => .of_bind fun mark => ?_
  cases mark with
  | none => exact answers_fail _
  | some b =>
    dsimp only
    split_ifs
    · exact .of_bind fun _ => answers_after List.Pairwise.nil outer
    · exact .of_bind fun key => answers_open List.Pairwise.nil outer
    · exact answers_fail _

theorem answers_startValue (m : Manner) (outer : ∀ frame ∈ stack, frame.KeysAscend) :
    (startValue m stack).Answers Progress.KeysAscend := by
  refine .of_bind fun mark => ?_
  cases mark with
  | none => exact answers_fail _
  | some b =>
    dsimp only
    split_ifs
    · exact answers_openArray outer
    · exact answers_openObject m outer
    · exact answers_fail _
    · exact .bind (answers_scalar m b) fun v ascending => answers_after ascending outer

theorem answers_afterItem (items : List Json) (outer : ∀ frame ∈ stack, frame.KeysAscend) :
    (afterItem items stack).Answers Progress.KeysAscend := by
  refine .of_bind fun mark => ?_
  cases mark with
  | none => exact answers_fail _
  | some b =>
    dsimp only
    split_ifs
    · refine .of_bind fun _ => .of_bind fun next => ?_
      split
      · exact answers_fail _
      · exact answers_open trivial outer
    · exact .of_bind fun _ => answers_after trivial outer
    · exact answers_fail _

theorem answers_afterField (m : Manner) {fields : List (String × Json)}
    (ascending : Json.KeysAscend (.object fields)) (outer : ∀ frame ∈ stack, frame.KeysAscend) :
    (afterField m fields stack).Answers Progress.KeysAscend := by
  refine .of_bind fun mark => ?_
  cases mark with
  | none => exact answers_fail _
  | some b =>
    dsimp only
    split_ifs
    · refine .of_bind fun _ => .of_bind fun next => ?_
      cases next with
      | none => exact answers_fail _
      | some b =>
        dsimp only
        split_ifs
        · exact .of_bind fun key => answers_open ascending outer
        · exact answers_fail _
    · exact .of_bind fun _ => answers_after ascending outer
    · exact answers_fail _

theorem answers_valueRound (m : Manner) (p : Progress) (ascending : p.KeysAscend) :
    (valueRound m p).Answers (Sum.elim Progress.KeysAscend KeysAscend) := by
  obtain ⟨goal, stack⟩ := p
  obtain ⟨last, opened⟩ := ascending
  have goOn {r : Reader Progress} (h : r.Answers Progress.KeysAscend) :
      (do return .inl (← r) : Reader (Progress ⊕ Json)).Answers
        (Sum.elim Progress.KeysAscend KeysAscend) :=
    h.bind fun p' ascending' => answers_pure ascending'
  cases goal with
  | value => exact goOn (answers_startValue m opened)
  | after v =>
    cases stack with
    | nil => exact answers_pure last
    | cons frame stack =>
      obtain ⟨inner, outer⟩ := List.forall_mem_cons.mp opened
      cases frame with
      | array items => exact goOn (answers_afterItem (v :: items) outer)
      | object fields key => exact goOn (answers_afterField m (keysAscend_insertEntry inner) outer)

end Reader

/-- In a value that is read, the keys ascend. -/
theorem keysAscend_of_parse {document : Bytes} {value : Json}
    (parsed : parse document = .ok value) : value.KeysAscend := by
  have read : Reader.value.Answers KeysAscend :=
    Reader.answers_loop (I := Progress.KeysAscend) (Reader.answers_valueRound .wanted)
      ⟨trivial, by simp⟩
  have whole : Reader.value.whole.Answers KeysAscend :=
    read.bind fun v ascending => .of_bind fun _ => Reader.answers_pure ascending
  exact whole.run parsed

end GraphSplice.Json
