import GraphSplice.Json.Codec
import GraphSplice.Json.Typed
import GraphSplice.Settings

/-!
Settings as documents. A document is an object with up to three fields, of which any may be left
out. It is read in two ways: as a value already parsed, with a cause for each way to be wrong, or
straight from the text, where unknown fields are passed over and an array gives the fields by
position.
-/

namespace GraphSplice.Settings

/-- Limits are 64-bit words. -/
def limitBound : Nat := Json.wordBound

/-! ## Writing -/

def toJson (s : Settings) : Json :=
  .object [("parity_check", .text s.parity.name),
    ("match_limit", (s.matchLimit.map Json.nat).getD .null),
    ("trace_pregraph", .bool s.showWiring)]

/-! ## Reading a value -/

inductive DocumentError where
  | notAnObject
  | unknownKey (key : String)
  | invalidParity (value : Json)
  | mistyped
  | zeroLimit

def knownKeys : List String := ["parity_check", "match_limit", "trace_pregraph"]

def parityOf : Option Json → Except DocumentError ParityPolicy
  | none => .ok Settings.default.parity
  | some (.text s) =>
    match ParityPolicy.ofName? s with
    | none => .error (.invalidParity (.text s))
    | some p => .ok p
  | some value => .error (.invalidParity value)

def limitOf [Json.Codec] : Option Json → Except DocumentError (Option Nat)
  | none => .ok Settings.default.matchLimit
  | some .null => .ok none
  | some value =>
    match Json.Codec.word? value with
    | none => .error .mistyped
    | some n => .ok (some n)

def showWiringOf [Json.Codec] : Option Json → Except DocumentError Bool
  | none => .ok Settings.default.showWiring
  | some value =>
    match Json.Codec.flag? value with
    | none => .error .mistyped
    | some b => .ok b

/-- A limit of zero would find nothing and is refused. -/
def checkLimit (s : Settings) : Except DocumentError Unit :=
  if s.matchLimit = some 0 then .error .zeroLimit else .ok ()

/-- Reads a document whose keys are ascending. -/
def ofJson [Json.Codec] : Json → Except DocumentError Settings
  | .object fields =>
    match fields.find? fun field => field.1 ∉ knownKeys with
    | some (key, _) => .error (.unknownKey key)
    | none => do
      let parity ← parityOf (fields.lookup "parity_check")
      let matchLimit ← limitOf (fields.lookup "match_limit")
      let showWiring ← showWiringOf (fields.lookup "trace_pregraph")
      let s : Settings := ⟨parity, matchLimit, showWiring⟩
      checkLimit s
      return s
  | _ => .error .notAnObject

/-! ## Reading from the text -/

/-- The fields read so far. -/
structure Partial where
  parity : Option ParityPolicy
  matchLimit : Option (Option Nat)
  showWiring : Option Bool

def Partial.empty : Partial := ⟨none, none, none⟩

def Partial.complete (p : Partial) : Settings :=
  ⟨p.parity.getD default.parity, p.matchLimit.getD default.matchLimit,
    p.showWiring.getD default.showWiring⟩

open Json Json.Reader

def readParity : Reader ParityPolicy := constant ParityPolicy.ofName?

def readLimit : Reader (Option Nat) := optional (natUpTo limitBound)

/-- Whether another item follows in an array; the comma before it is read. -/
def anotherItem (isFirst : Bool) : Reader Bool := do
  match ← peekMark with
  | none => fail .unfinished
  | some b =>
    if b = byte ']' then return false
    else if isFirst then return true
    else if b = byte ',' then do
      skip
      match ← peekMark with
      | none => fail .unfinished
      | some b => if b = byte ']' then fail .malformed else return true
    else fail .malformed

def closeArray : Reader Unit := do
  match ← peekMark with
  | none => fail .unfinished
  | some b => if b = byte ']' then skip else fail .malformed

/-- The fields by position, after the opening bracket. -/
def readItems : Reader Partial := do
  let mut p := Partial.empty
  if ← anotherItem true then
    p := { p with parity := some (← readParity) }
    if ← anotherItem false then
      p := { p with matchLimit := some (← readLimit) }
      if ← anotherItem false then
        p := { p with showWiring := some (← flag) }
  closeArray
  return p

/-- The value of a field after its key. A field given twice is refused before its colon. -/
def readField (p : Partial) (key : String) : Reader Partial := do
  if key = "parity_check" then
    if p.parity.isSome then fail .mistyped
    else do
      mark ':'
      return { p with parity := some (← readParity) }
  else if key = "match_limit" then
    if p.matchLimit.isSome then fail .mistyped
    else do
      mark ':'
      return { p with matchLimit := some (← readLimit) }
  else if key = "trace_pregraph" then
    if p.showWiring.isSome then fail .mistyped
    else do
      mark ':'
      return { p with showWiring := some (← flag) }
  else do
    mark ':'
    passValue
    return p

/-- One field of an object, or its end. -/
def fieldRound (state : Bool × Partial) : Reader ((Bool × Partial) ⊕ Partial) := do
  match ← peekMark with
  | none => fail .unfinished
  | some b =>
    if b = byte '}' then do
      skip
      return .inr state.2
    else do
      if ¬ state.1 then mark ','
      match ← peekMark with
      | none => fail .unfinished
      | some b =>
        if b = byte '"' then do
          skip
          return .inl (false, ← readField state.2 (← Json.Reader.text))
        else fail .malformed

def reader : Reader Settings := do
  match ← peekMark with
  | none => fail .unfinished
  | some b =>
    if b = byte '[' then do
      skip
      return (← readItems).complete
    else if b = byte '{' then do
      skip
      return (← loop fieldRound (true, Partial.empty)).complete
    else refuse

end GraphSplice.Settings
