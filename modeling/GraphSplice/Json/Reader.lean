import GraphSplice.Text.Utf8

/-!
Readers of bytes. A reader answers a value and what it has left of its input, or a fault. What is
left is never longer than the input, so a loop whose rounds all consume something comes to an
end.
-/

namespace GraphSplice

namespace Json

/-- Why a text is refused: it ends too early, it is not well formed, or it is well formed and not
of the wanted type. -/
inductive Fault where
  | unfinished
  | malformed
  | mistyped
  deriving DecidableEq, Repr

abbrev Rest (input : Bytes) := { rest : Bytes // rest.length ≤ input.length }

def Reader (α : Type) := (input : Bytes) → Except Fault (α × Rest input)

namespace Reader

variable {α β σ : Type}

def pure (x : α) : Reader α := fun input => .ok (x, ⟨input, Nat.le_refl _⟩)

def bind (r : Reader α) (f : α → Reader β) : Reader β := fun input =>
  match r input with
  | .error e => .error e
  | .ok (x, rest) =>
    match f x rest.1 with
    | .error e => .error e
    | .ok (y, rest') => .ok (y, ⟨rest'.1, Nat.le_trans rest'.2 rest.2⟩)

instance : Monad Reader where
  pure := pure
  bind := bind

def fail (e : Fault) : Reader α := fun _ => .error e

/-- The next byte, which stays in the input. -/
def peek : Reader (Option UInt8) := fun input => .ok (input.head?, ⟨input, Nat.le_refl _⟩)

def skip : Reader Unit := fun input => .ok ((), ⟨input.drop 1, by simp⟩)

/-- The next byte; an input without one is unfinished. -/
def next : Reader UInt8 := do
  match ← peek with
  | none => fail .unfinished
  | some b => do
    skip
    return b

def takeWhile (p : UInt8 → Bool) : Reader Bytes := fun input =>
  .ok (input.takeWhile p, ⟨input.dropWhile p, (List.dropWhile_suffix p).length_le⟩)

/-- The next `count` bytes; an input with fewer is unfinished. -/
def take (count : Nat) : Reader Bytes := fun input =>
  if input.length < count then .error .unfinished
  else .ok (input.take count, ⟨input.drop count, by simp⟩)

/-- Runs rounds, each from the state that the one before it left, until one yields a result. A
round that consumes nothing and yields nothing is refused. -/
def loop (round : σ → Reader (σ ⊕ α)) (s : σ) : Reader α := fun input =>
  match round s input with
  | .error e => .error e
  | .ok (.inr x, rest) => .ok (x, rest)
  | .ok (.inl s', ⟨rest, _⟩) =>
    if h : rest.length < input.length then
      match loop round s' rest with
      | .error e => .error e
      | .ok (x, rest') => .ok (x, ⟨rest'.1, by have := rest'.2; omega⟩)
    else .error .malformed
termination_by input => input.length

/-- The result of a reader that leaves nothing of the input. -/
def run (r : Reader α) (input : Bytes) : Except Fault α :=
  match r input with
  | .error e => .error e
  | .ok (x, rest) => if rest.1 = [] then .ok x else .error .malformed

end Reader

/-! ## Characters -/

def byte (c : Char) : UInt8 := c.toNat.toUInt8

def isBlank (b : UInt8) : Bool :=
  b == byte ' ' || b == byte '\n' || b == byte '\t' || b == byte '\r'

def isDigit (b : UInt8) : Bool := 48 ≤ b.toNat && b.toNat ≤ 57

def digit (b : UInt8) : Nat := b.toNat - 48

def hexDigit? (b : UInt8) : Option Nat :=
  let n := b.toNat
  if 48 ≤ n ∧ n ≤ 57 then some (n - 48)
  else if 65 ≤ n ∧ n ≤ 70 then some (n - 55)
  else if 97 ≤ n ∧ n ≤ 102 then some (n - 87)
  else none

namespace Reader

def blank : Reader Unit := do
  let _ ← takeWhile isBlank
  return ()

/-- The next byte that is not blank, which stays in the input. -/
def peekMark : Reader (Option UInt8) := do
  blank
  peek

/-- The rest of a word whose first letter was seen, or the whole word. -/
def word : List Char → Reader Unit
  | [] => pure ()
  | c :: rest => do
    let b ← next
    if b = byte c then word rest else fail .malformed

/-- The mark `c` after blanks. -/
def mark (c : Char) : Reader Unit := do
  match ← peekMark with
  | none => fail .unfinished
  | some b => if b = byte c then skip else fail .malformed

end Reader

end Json

end GraphSplice
