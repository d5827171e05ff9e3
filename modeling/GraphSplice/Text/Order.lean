import GraphSplice.Ascending

/-!
The order of texts by code points, which is also the order of their encodings byte by byte.
-/

namespace GraphSplice.Text

def codes (s : String) : List Nat := s.toList.map Char.toNat

def precedes (s t : String) : Bool := Ascending.precedes (codes s) (codes t)

end GraphSplice.Text
