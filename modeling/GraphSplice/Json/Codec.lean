import GraphSplice.Json.Value

/-!
Codecs for documents. A codec reads texts as values and writes values as texts, and it decodes
scalars. Documents are stored and loaded through the codec in use; the reader and the writer of
this library are one.
-/

namespace GraphSplice.Json

/-- The greatest 64-bit word. -/
def wordBound : Nat := twoTo 64 - 1

class Codec where
  /-- The value that a whole text is. -/
  parse : Bytes → Except Fault Json
  /-- The indented text of a value. -/
  print : Json → Bytes
  /-- The 64-bit word that a value is. -/
  word? : Json → Option Nat
  /-- The truth value that a value is. -/
  flag? : Json → Option Bool

def word? : Json → Option Nat
  | .number (.integer n) => if 0 ≤ n ∧ n.toNat ≤ wordBound then some n.toNat else none
  | _ => none

def flag? : Json → Option Bool
  | .bool b => some b
  | _ => none

instance : Codec where
  parse := parse
  print value := Text.Utf8.encode value.pretty
  word? := word?
  flag? := flag?

end GraphSplice.Json
