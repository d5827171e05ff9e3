import GraphSplice.Json
import GraphSplice.Json.Reader

/-!
Reading texts and numbers. There are two manners: with care, for a value that is wanted, and in
passing, for a value that is left out. In passing, the value is not built, so what is wrong only
with the value goes unnoticed: halves of surrogate pairs, bytes that are not UTF-8, and numbers
too great.
-/

namespace GraphSplice.Json.Reader

/-! ## Texts -/

def hex4 : Reader Nat := do
  let digits ← take 4
  match digits.mapM hexDigit? with
  | none => fail .malformed
  | some ds => return ds.foldl (fun n d => n * 16 + d) 0

def isHighHalf (n : Nat) : Bool := 0xD800 ≤ n && n ≤ 0xDBFF

def isLowHalf (n : Nat) : Bool := 0xDC00 ≤ n && n ≤ 0xDFFF

/-- The mark `c` at once. -/
def sharp (c : Char) : Reader Unit := do
  let b ← next
  if b = byte c then return () else fail .malformed

/-- The number of a character after `\u`: one group of digits, or two for a surrogate pair. -/
def codePoint : Reader Nat := do
  let n ← hex4
  if isLowHalf n then fail .malformed
  else if isHighHalf n then do
    sharp '\\'
    sharp 'u'
    let m ← hex4
    if isLowHalf m then return 0x10000 + (n - 0xD800) * 0x400 + (m - 0xDC00) else fail .malformed
  else return n

/-- What a letter after a backslash stands for. -/
def shortEscape? (b : UInt8) : Option Char :=
  if b = byte '"' then some '"'
  else if b = byte '\\' then some '\\'
  else if b = byte '/' then some '/'
  else if b = byte 'b' then some '\x08'
  else if b = byte 'f' then some '\x0c'
  else if b = byte 'n' then some '\n'
  else if b = byte 'r' then some '\r'
  else if b = byte 't' then some '\t'
  else none

/-- The character that an escape stands for; in passing only its form is read. -/
def escape (careful : Bool) : Reader (Option Char) := do
  let b ← next
  match shortEscape? b with
  | some c => return some c
  | none =>
    if b = byte 'u' then
      if careful then return some (Char.ofNat (← codePoint))
      else do
        let _ ← hex4
        return none
    else fail .malformed

/-- A piece of a text: plain bytes, or an escape. The bytes come in reverse. -/
def textRound (careful : Bool) (read : Bytes) : Reader (Bytes ⊕ Bytes) := do
  let b ← next
  if b = byte '"' then return .inr read.reverse
  else if b = byte '\\' then do
    match ← escape careful with
    | none => return .inl read
    | some c => return .inl ((String.utf8EncodeChar c).reverse ++ read)
  else if b.toNat < 0x20 then fail .malformed
  else return .inl (b :: read)

/-- A text whose opening quote was read. -/
def text : Reader String := do
  let bytes ← loop (textRound true) []
  match Text.Utf8.decode? bytes with
  | none => fail .malformed
  | some s => return s

def passText : Reader Unit := do
  let _ ← loop (textRound false) []
  return ()

/-! ## Numbers -/

/-- The greatest significand that is kept exactly. -/
def significandBound : Nat := twoTo 64 - 1

/-- Digits taken into a significand, from the first one up to the bound. -/
structure Taken where
  significand : Nat
  /-- How many digits were taken. -/
  used : Nat
  /-- How many digits came after the first one that did not fit. -/
  dropped : Nat
  deriving DecidableEq, Repr

def takeDigits (t : Taken) : List Nat → Taken
  | [] => t
  | d :: rest =>
    if t.significand * 10 + d ≤ significandBound then
      takeDigits { t with significand := t.significand * 10 + d, used := t.used + 1 } rest
    else { t with dropped := rest.length + 1 }

/-- Scales by a power of ten with one rounding for each step of at most `10 ^ 308`. A result too
great to be finite is none. -/
def scale (x : Float) (exponent : Int) : Option Float :=
  if exponent.natAbs ≤ 308 then
    let power := Float.ofScientific 1 false exponent.natAbs
    if 0 ≤ exponent then
      let y := x * power
      if y.isInf then none else some y
    else some (x / power)
  else if x == 0 then some x
  else if 0 ≤ exponent then none
  else scale (x / Float.ofScientific 1 false 308) (exponent + 308)
termination_by exponent.natAbs
decreasing_by omega

def exponentBound : Int := twoTo 31 - 1

/-- Exponents are kept within 32-bit words. -/
def clamp (n : Int) : Int := max (-exponentBound - 1) (min exponentBound n)

def realOf (negative : Bool) (significand : Nat) (exponent : Int) : Reader Number :=
  match scale significand.toUInt64.toFloat exponent with
  | none => fail .malformed
  | some x => return .real (if negative then -x else x)

def digits : Reader (List Nat) := do
  let ds ← takeWhile isDigit
  return ds.map digit

/-- The exponent of a number, after its letter. -/
def exponentPart (negative : Bool) (significand : Nat) (exponent : Int) : Reader Number := do
  let sign ← peek
  let down := sign = some (byte '-')
  if down ∨ sign = some (byte '+') then skip
  match ← peek with
  | none => fail .unfinished
  | some b =>
    if isDigit b then do
      let ds ← digits
      let n : Int := (ds.foldl (fun n d => n * 10 + d) 0 : Nat)
      if exponentBound < n then
        if significand ≠ 0 ∧ ¬ down then fail .malformed
        else return .real (if negative then -0.0 else 0.0)
      else realOf negative significand (clamp (if down then exponent - n else exponent + n))
    else fail .malformed

def isExponentMark (b : Option UInt8) : Bool := b == some (byte 'e') || b == some (byte 'E')

/-- The fraction of a number, after its point. -/
def fractionPart (negative : Bool) (significand : Nat) (exponent : Int) : Reader Number := do
  let ds ← digits
  if ds = [] then
    match ← peek with
    | none => fail .unfinished
    | some _ => fail .malformed
  else do
    let taken := takeDigits ⟨significand, 0, 0⟩ ds
    let exponent := exponent - taken.used
    if isExponentMark (← peek) then do
      skip
      exponentPart negative taken.significand exponent
    else realOf negative taken.significand exponent

/-- An integer that fits its word, and a real otherwise; minus zero is a real. -/
def wholeNumber (negative : Bool) (significand : Nat) : Number :=
  if negative then
    if significand = 0 ∨ twoTo 63 < significand then .real (-significand.toUInt64.toFloat)
    else .integer (-(significand : Int))
  else .integer significand

/-- A number whose sign was read. -/
def number (negative : Bool) : Reader Number := do
  match ← peek with
  | none => fail .unfinished
  | some b =>
    if ¬ isDigit b then fail .malformed
    else do
      let ds ← digits
      if b = byte '0' ∧ 1 < ds.length then fail .malformed
      else do
        let taken := takeDigits ⟨0, 0, 0⟩ ds
        let mark ← peek
        if mark = some (byte '.') then do
          skip
          fractionPart negative taken.significand taken.dropped
        else if isExponentMark mark then do
          skip
          exponentPart negative taken.significand taken.dropped
        else if taken.dropped = 0 then return wholeNumber negative taken.significand
        else realOf negative taken.significand taken.dropped

/-- At least one digit, in passing. -/
def passDigits : Reader Unit := do
  let ds ← digits
  if ds = [] then fail .malformed else return ()

/-- A number in passing, its sign read. Here an end inside the number is malformed. -/
def passNumber : Reader Unit := do
  let first ← peek
  let ds ← digits
  if ds = [] ∨ (first = some (byte '0') ∧ 1 < ds.length) then fail .malformed
  else do
    if (← peek) = some (byte '.') then do
      skip
      passDigits
    if isExponentMark (← peek) then do
      skip
      let sign ← peek
      if sign = some (byte '-') ∨ sign = some (byte '+') then skip
      passDigits

end GraphSplice.Json.Reader
