/-!
Powers of the two bases in use: two for the sizes of words and ten for decimals.
-/

namespace GraphSplice

def twoTo (n : Nat) : Nat := Nat.pow 2 n

def tenTo (n : Nat) : Nat := Nat.pow 10 n

theorem twoTo_pos (n : Nat) : 0 < twoTo n := Nat.pow_pos (by decide)

end GraphSplice
