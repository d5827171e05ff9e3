/-!
Finite sets kept as strictly ascending lists, and finite maps as lists of entries whose keys ascend.
Insertion keeps the order and drops repetitions, so two lists built from the same members are
equal, and overlap is found in one walk.
-/

namespace GraphSplice.Ascending

universe u
variable {α : Type u} [LT α] [DecidableLT α]

def insert (x : α) : List α → List α
  | [] => [x]
  | y :: ys => if x < y then x :: y :: ys else if y < x then y :: insert x ys else y :: ys

/-- Puts a value under a key, in place of the one that was there. -/
def insertEntry {β : Type} [DecidableEq α] (key : α) (value : β) : List (α × β) → List (α × β)
  | [] => [(key, value)]
  | (k, v) :: rest =>
    if key = k then (key, value) :: rest
    else if key < k then (key, value) :: (k, v) :: rest
    else (k, v) :: insertEntry key value rest

def ofList (xs : List α) : List α := xs.foldl (fun acc x => insert x acc) []

def insertAll (set : List α) (xs : List α) : List α := xs.foldl (fun acc x => insert x acc) set

/-- Two ascending lists share a member. The list with the smaller head is advanced. -/
def meets : List α → List α → Bool
  | [], _ => false
  | _ :: _, [] => false
  | x :: xs, y :: ys =>
    if x < y then meets xs (y :: ys) else if y < x then meets (x :: xs) ys else true
termination_by xs ys => xs.length + ys.length

/-- Lexicographic order of number sequences, a proper beginning coming first. -/
def precedes : List Nat → List Nat → Bool
  | [], [] => false
  | [], _ :: _ => true
  | _ :: _, [] => false
  | x :: xs, y :: ys => if x < y then true else if y < x then false else precedes xs ys

end GraphSplice.Ascending
