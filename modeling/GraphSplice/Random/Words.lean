import GraphSplice.Power
import GraphSplice.Random.Source

/-!
Draws from random words. A draw below a range multiplies a word by the range and takes the upper
half of the product, refusing words whose lower half lies in the incomplete last stretch, so that
all results are equally likely.
-/

namespace GraphSplice

class RandomWords (σ : Type) where
  next32 : σ → UInt32 × σ
  next64 : σ → UInt64 × σ

namespace RandomWords

variable {σ α : Type}

/-- How many bits a word of `width` bits has before the first one that `range` needs. -/
def leadingZeros (width range : Nat) : Nat := width - (Nat.log2 range + 1)

/-- The greatest lower half that is accepted. -/
def zone (width range : Nat) : Nat :=
  range * twoTo (leadingZeros width range) % twoTo width - 1

theorem mul_div_twoTo_lt {word range width : Nat} (hw : word < twoTo width) (hr : 0 < range) :
    word * range / twoTo width < range := by
  rw [Nat.div_lt_iff_lt_mul (twoTo_pos width), Nat.mul_comm range]
  exact Nat.mul_lt_mul_of_pos_right hw hr

/-- The number up to `top` that the next word gives, unless the word is refused. -/
def attempt {width : Nat} (top : Nat) (next : σ → Fin (twoTo width) × σ) (s : σ) :
    σ ⊕ (Fin (top + 1) × σ) :=
  let (word, s) := next s
  if word * (top + 1) % twoTo width ≤ zone width (top + 1) then
    .inr (⟨word * (top + 1) / twoTo width, mul_div_twoTo_lt word.isLt top.succ_pos⟩, s)
  else .inl s

/-- A number up to `top`. Words are drawn until one is accepted; of all words at least every second
one is, but nothing keeps a source from giving refused words only, so there is no bound on how many
are drawn. -/
def drawUpTo {width : Nat} (top : Nat) (next : σ → Fin (twoTo width) × σ) (s : σ) :
    Fin (top + 1) × σ :=
  haveI : Nonempty (Fin (top + 1) × σ) := ⟨⟨0, top.succ_pos⟩, s⟩
  Id.run (repeatM (fun s => pure (attempt top next s)) s)

variable [RandomWords σ]

/-- A number up to `top`, drawn from 32-bit words. -/
def upTo32 (top : Nat) (s : σ) : Fin (top + 1) × σ :=
  drawUpTo top (fun s => let (word, s) := next32 s; (⟨word.toNat, word.toNat_lt⟩, s)) s

/-- A number up to `top`, drawn from 64-bit words. -/
def upTo64 (top : Nat) (s : σ) : Fin (top + 1) × σ :=
  drawUpTo top (fun s => let (word, s) := next64 s; (⟨word.toNat, word.toNat_lt⟩, s)) s

/-- A position up to `last`. The wider words are used only where the others do not suffice. -/
def position (last : Nat) (s : σ) : Fin (last + 1) × σ :=
  if last + 1 < twoTo 32 then upTo32 last s else upTo64 last s

/-- One of the items. Nothing is drawn if there are none. -/
def choose : List α → σ → Option α × σ
  | [], s => (none, s)
  | first :: rest, s =>
    let (i, s) := position rest.length s
    (some ((first :: rest).get i), s)

/-- Exchanges each of the last `count` positions, from the end, with one not after it. -/
def shuffleFrom (items : Array α) : Nat → σ → Array α × σ
  | 0, s => (items, s)
  | i + 1, s =>
    let (j, s) := position (i + 1) s
    shuffleFrom (items.swapIfInBounds (i + 1) j) i s

def shuffle (items : List α) (s : σ) : List α × σ :=
  let (shuffled, s) := shuffleFrom items.toArray (items.length - 1) s
  (shuffled.toList, s)

/-- Words are a source of randomness. Below zero there is no number, and none is drawn. -/
instance : RandomSource σ where
  below
    | 0, s => (0, s)
    | top + 1, s =>
      let (n, s) := upTo64 top s
      (n, s)
  choose := choose
  shuffle := shuffle

end RandomWords

/-- Words of one of two kinds. -/
instance {σ τ : Type} [RandomWords σ] [RandomWords τ] : RandomWords (σ ⊕ τ) where
  next32
    | .inl s => let (word, s) := RandomWords.next32 s; (word, .inl s)
    | .inr s => let (word, s) := RandomWords.next32 s; (word, .inr s)
  next64
    | .inl s => let (word, s) := RandomWords.next64 s; (word, .inl s)
    | .inr s => let (word, s) := RandomWords.next64 s; (word, .inr s)

/-- Given words, and after them a linear congruence on the last one. -/
structure WordSource where
  words : List UInt64
  last : UInt64

namespace WordSource

def ofWords (words : List UInt64) : WordSource := ⟨words, 0⟩

def next (s : WordSource) : UInt64 × WordSource :=
  match s.words with
  | word :: rest => (word, ⟨rest, word⟩)
  | [] =>
    let word := s.last * 6364136223846793005 + 1442695040888963407
    (word, ⟨[], word⟩)

instance : RandomWords WordSource where
  next32 s :=
    let (word, s) := s.next
    (word.toUInt32, s)
  next64 := next

end WordSource

end GraphSplice
