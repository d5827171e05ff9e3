import GraphSplice.Json.Reader

/-!
Readers by what they leave. A reader that succeeds takes its part of the input and hands the rest
to the next one, so the result of a compound reader follows from the results of its parts.
-/

namespace GraphSplice.Json.Reader

variable {α β σ : Type}

/-- On this input the reader answers `x` and leaves `rest`. -/
def Reads (r : Reader α) (input : Bytes) (x : α) (rest : Bytes) : Prop :=
  ∃ shorter, r input = .ok (x, ⟨rest, shorter⟩)

theorem reads_pure (x : α) (input : Bytes) : Reads (Pure.pure x) input x input := ⟨_, rfl⟩

theorem Reads.bind {r : Reader α} {f : α → Reader β} {input middle rest : Bytes} {x : α} {y : β}
    (before : r.Reads input x middle) (after : (f x).Reads middle y rest) :
    (r >>= f).Reads input y rest := by
  obtain ⟨shorter, answered⟩ := before
  obtain ⟨shorter', answered'⟩ := after
  refine ⟨Nat.le_trans shorter' shorter, ?_⟩
  change Reader.bind r f input = _
  simp only [Reader.bind, answered, answered']

theorem Reads.run {r : Reader α} {input : Bytes} {x : α} (h : r.Reads input x []) :
    r.run input = .ok x := by
  obtain ⟨shorter, answered⟩ := h
  simp [Reader.run, answered]

/-! ## Bytes -/

theorem reads_peek (input : Bytes) : peek.Reads input input.head? input := ⟨_, rfl⟩

theorem reads_skip (b : UInt8) (rest : Bytes) : skip.Reads (b :: rest) () rest :=
  ⟨by simp, rfl⟩

theorem reads_next (b : UInt8) (rest : Bytes) : next.Reads (b :: rest) b rest :=
  (reads_peek (b :: rest)).bind ((reads_skip b rest).bind (reads_pure b rest))

theorem reads_takeWhile {p : UInt8 → Bool} {taken rest : Bytes} (all : ∀ b ∈ taken, p b = true)
    (stop : ∀ b ∈ rest.head?, p b = false) : (takeWhile p).Reads (taken ++ rest) taken rest := by
  have ended : rest.takeWhile p = [] ∧ rest.dropWhile p = rest := by
    cases rest with
    | nil => exact ⟨rfl, rfl⟩
    | cons b tail =>
      have refused : p b = false := stop b rfl
      simp [refused]
  refine ⟨by simp, ?_⟩
  simp [takeWhile, List.takeWhile_append_of_pos all, List.dropWhile_append_of_pos all, ended]

theorem reads_blank (gap : Bytes) {rest : Bytes} (blanks : gap.all isBlank = true)
    (stop : ∀ b ∈ rest.head?, isBlank b = false) : blank.Reads (gap ++ rest) () rest :=
  (reads_takeWhile (List.all_eq_true.mp blanks) stop).bind (reads_pure () rest)

theorem reads_peekMark (gap : Bytes) {b : UInt8} {rest : Bytes}
    (blanks : gap.all isBlank = true) (marked : isBlank b = false) :
    peekMark.Reads (gap ++ b :: rest) (some b) (b :: rest) := by
  have stop : ∀ c ∈ (b :: rest).head?, isBlank c = false := by
    intro c mem
    cases mem
    exact marked
  exact (reads_blank gap blanks stop).bind (reads_peek (b :: rest))

theorem reads_mark {c : Char} (marked : isBlank (byte c) = false) (rest : Bytes) :
    (mark c).Reads (byte c :: rest) () rest := by
  refine (reads_peekMark [] rfl marked).bind ?_
  simp only [if_true]
  exact reads_skip (byte c) rest

theorem reads_word (letters : List Char) (rest : Bytes) :
    (word letters).Reads (letters.map byte ++ rest) () rest := by
  induction letters with
  | nil => exact reads_pure () rest
  | cons c letters ih =>
    refine (reads_next (byte c) _).bind ?_
    simp only [if_true]
    exact ih

/-! ## Loops -/

theorem Reads.done {round : σ → Reader (σ ⊕ α)} {s : σ} {input rest : Bytes} {x : α}
    (last : (round s).Reads input (.inr x) rest) : (loop round s).Reads input x rest := by
  obtain ⟨shorter, answered⟩ := last
  refine ⟨shorter, ?_⟩
  rw [loop, answered]

/-- A round that consumes something and goes on. -/
theorem Reads.step {round : σ → Reader (σ ⊕ α)} {s s' : σ} {input middle rest : Bytes} {x : α}
    (first : (round s).Reads input (.inl s') middle) (consumed : middle.length < input.length)
    (others : (loop round s').Reads middle x rest) : (loop round s).Reads input x rest := by
  obtain ⟨shorter, answered⟩ := first
  obtain ⟨shorter', answered'⟩ := others
  refine ⟨Nat.le_trans shorter' shorter, ?_⟩
  rw [loop, answered]
  simp only [consumed, dif_pos, answered']

end GraphSplice.Json.Reader
