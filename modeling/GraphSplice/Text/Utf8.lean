import GraphSplice.Power

/-!
UTF-8. Bytes are read into characters and, where they encode none, into gaps: a gap covers the
longest run of bytes that begins a character without completing it, and at least one byte.
-/

namespace GraphSplice

abbrev Bytes := List UInt8

namespace Text.Utf8

def encode (s : String) : Bytes := s.toList.flatMap String.utf8EncodeChar

/-- The first and last byte that may follow a leading byte, and how many bytes follow in all. -/
def following (lead : Nat) : Option (Nat × Nat × Nat) :=
  if 0xC2 ≤ lead ∧ lead ≤ 0xDF then some (0x80, 0xBF, 1)
  else if lead = 0xE0 then some (0xA0, 0xBF, 2)
  else if lead = 0xED then some (0x80, 0x9F, 2)
  else if 0xE1 ≤ lead ∧ lead ≤ 0xEF then some (0x80, 0xBF, 2)
  else if lead = 0xF0 then some (0x90, 0xBF, 3)
  else if 0xF1 ≤ lead ∧ lead ≤ 0xF3 then some (0x80, 0xBF, 3)
  else if lead = 0xF4 then some (0x80, 0x8F, 3)
  else none

/-- The payload of a leading byte that `count` bytes follow. -/
def leadPayload (lead count : Nat) : Nat := lead % twoTo (6 - count)

/-- The bytes that continue a character, at most `count`: the first in the given range and the
others any continuation bytes. -/
def continuation (low high : Nat) : Nat → Bytes → List Nat
  | 0, _ => []
  | _ + 1, [] => []
  | count + 1, b :: rest =>
    if low ≤ b.toNat ∧ b.toNat ≤ high then b.toNat :: continuation 0x80 0xBF count rest else []

/-- The character or gap at the start of a text with this first byte, and how many further bytes
it covers. -/
def first (lead : UInt8) (rest : Bytes) : Option Char × Nat :=
  if lead.toNat < 0x80 then (some (Char.ofNat lead.toNat), 0)
  else
    match following lead.toNat with
    | none => (none, 0)
    | some (low, high, count) =>
      let tail := continuation low high count rest
      if tail.length = count then
        (some (Char.ofNat
          (tail.foldl (fun n b => n * 64 + b % 64) (leadPayload lead.toNat count))), count)
      else (none, tail.length)

/-- The characters of a text, none standing for a gap. -/
def scan : Bytes → List (Option Char)
  | [] => []
  | lead :: rest => (first lead rest).1 :: scan (rest.drop (first lead rest).2)
termination_by bytes => bytes.length
decreasing_by
  simp only [List.length_drop, List.length_cons]
  omega

def decode? (bytes : Bytes) : Option String := ((scan bytes).mapM id).map String.ofList

/-- Each gap becomes the replacement character. -/
def decodeLossy (bytes : Bytes) : String :=
  String.ofList ((scan bytes).map (·.getD '\uFFFD'))

end Text.Utf8

end GraphSplice
