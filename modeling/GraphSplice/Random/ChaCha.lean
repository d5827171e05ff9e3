import GraphSplice.Random.Words

/-!
The keystream of ChaCha with twelve rounds as random words. The key is stretched from a
64-bit seed; the block counter has 64 bits and starts at zero, and so does the stream number. Words
are used in the order of the stream, a 64-bit word being two of them, the lower half first.
-/

namespace GraphSplice

namespace ChaCha

abbrev Block := Array UInt32

def rotateLeft (x : UInt32) (n : UInt32) : UInt32 := (x <<< n) ||| (x >>> (32 - n))

def rotateRight (x : UInt32) (n : UInt32) : UInt32 :=
  if n = 0 then x else (x >>> n) ||| (x <<< (32 - n))

def word (b : Block) (i : Nat) : UInt32 := b.getD i 0

def quarterRound (s : Block) (a b c d : Nat) : Block :=
  let wa := word s a + word s b
  let wd := rotateLeft (word s d ^^^ wa) 16
  let wc := word s c + wd
  let wb := rotateLeft (word s b ^^^ wc) 12
  let wa := wa + wb
  let wd := rotateLeft (wd ^^^ wa) 8
  let wc := wc + wd
  let wb := rotateLeft (wb ^^^ wc) 7
  (((s.setIfInBounds a wa).setIfInBounds b wb).setIfInBounds c wc).setIfInBounds d wd

/-- A round on the columns and one on the diagonals. -/
def doubleRound (s : Block) : Block :=
  let s := quarterRound s 0 4 8 12
  let s := quarterRound s 1 5 9 13
  let s := quarterRound s 2 6 10 14
  let s := quarterRound s 3 7 11 15
  let s := quarterRound s 0 5 10 15
  let s := quarterRound s 1 6 11 12
  let s := quarterRound s 2 7 8 13
  quarterRound s 3 4 9 14

def constants : List UInt32 := [0x61707865, 0x3320646e, 0x79622d32, 0x6b206574]

def initial (key : List UInt32) (counter : UInt64) : Block :=
  (constants ++ key ++ [counter.toUInt32, (counter >>> 32).toUInt32, 0, 0]).toArray

/-- The words of one block of the keystream. -/
def block (key : List UInt32) (counter : UInt64) : List UInt32 :=
  let start := initial key counter
  let mixed := (List.range 6).foldl (fun s _ => doubleRound s) start
  (start.toList.zip mixed.toList).map fun (x, y) => x + y

/-- The words of a key stretched from a seed. -/
def keyWords : Nat → UInt64 → List UInt32
  | 0, _ => []
  | count + 1, state =>
    let state := state * 6364136223846793005 + 11634580027462260723
    let mixed := (((state >>> 18) ^^^ state) >>> 27).toUInt32
    rotateRight mixed (state >>> 59).toUInt32 :: keyWords count state

end ChaCha

structure ChaCha where
  key : List UInt32
  /-- The number of the next block. -/
  counter : UInt64
  /-- The words of the present block that are not used yet. -/
  rest : List UInt32

namespace ChaCha

def ofSeed (seed : UInt64) : ChaCha := ⟨keyWords 8 seed, 0, []⟩

def next (s : ChaCha) : UInt32 × ChaCha :=
  match s.rest with
  | w :: rest => (w, { s with rest := rest })
  | [] =>
    match block s.key s.counter with
    | [] => (0, { s with counter := s.counter + 1 })
    | w :: rest => (w, ⟨s.key, s.counter + 1, rest⟩)

instance : RandomWords ChaCha where
  next32 := next
  next64 s :=
    let (low, s) := s.next
    let (high, s) := s.next
    (low.toUInt64 ||| (high.toUInt64 <<< 32), s)

end ChaCha

end GraphSplice
