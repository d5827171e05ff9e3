import GraphSplice.Json.Scalar
import GraphSplice.Ascending

/-!
Reading whole values. The values still open are on a stack, so a round of the reader handles one
scalar, bracket or comma. A repeated key keeps its last value, and keys are in ascending order.
-/

namespace GraphSplice.Json

/-- A value still open: the items of an array so far, in reverse, or the fields of an object and
the key whose value is read next. -/
inductive Frame where
  | array (items : List Json)
  | object (fields : List (String × Json)) (key : String)

/-- What the reader does next: read a value, or go on after one. -/
inductive Goal where
  | value
  | after (value : Json)

structure Progress where
  goal : Goal
  stack : List Frame

/-- How values are read: with care or in passing, and how many may be open at once. -/
structure Manner where
  careful : Bool
  depth : Option Nat

namespace Manner

/-- At most 127 arrays and objects may be nested in a value that is wanted. -/
def wanted : Manner := ⟨true, some 127⟩

def leftOut : Manner := ⟨false, none⟩

end Manner

namespace Reader

def scalarText (m : Manner) : Reader String := do
  if m.careful then text
  else do
    passText
    return ""

def scalarNumber (m : Manner) (negative : Bool) : Reader Json := do
  if m.careful then return .number (← number negative)
  else do
    passNumber
    return .null

/-- A scalar that starts with the given byte. -/
def scalar (m : Manner) (b : UInt8) : Reader Json := do
  if b = byte 'n' then do
    word ['n', 'u', 'l', 'l']
    return .null
  else if b = byte 't' then do
    word ['t', 'r', 'u', 'e']
    return .bool true
  else if b = byte 'f' then do
    word ['f', 'a', 'l', 's', 'e']
    return .bool false
  else if b = byte '"' then do
    skip
    return .text (← scalarText m)
  else if b = byte '-' then do
    skip
    scalarNumber m true
  else if isDigit b then scalarNumber m false
  else fail .malformed

def mayOpen (m : Manner) (stack : List Frame) : Bool :=
  match m.depth with
  | none => true
  | some depth => stack.length < depth

/-- A key and its colon; the opening quote was seen. -/
def keyAndColon (m : Manner) : Reader String := do
  skip
  let key ← scalarText m
  mark ':'
  return key

def openArray (stack : List Frame) : Reader Progress := do
  skip
  if (← peekMark) = some (byte ']') then do
    skip
    return ⟨.after (.array []), stack⟩
  else return ⟨.value, .array [] :: stack⟩

def openObject (m : Manner) (stack : List Frame) : Reader Progress := do
  skip
  match ← peekMark with
  | none => fail .unfinished
  | some b =>
    if b = byte '}' then do
      skip
      return ⟨.after (.object []), stack⟩
    else if b = byte '"' then do
      let key ← keyAndColon m
      return ⟨.value, .object [] key :: stack⟩
    else fail .malformed

def startValue (m : Manner) (stack : List Frame) : Reader Progress := do
  match ← peekMark with
  | none => fail .unfinished
  | some b =>
    if b = byte '[' ∨ b = byte '{' then
      if ¬ mayOpen m stack then fail .malformed
      else if b = byte '[' then openArray stack
      else openObject m stack
    else return ⟨.after (← scalar m b), stack⟩

/-- After an item of an array: the next one, or the end. -/
def afterItem (items : List Json) (stack : List Frame) : Reader Progress := do
  match ← peekMark with
  | none => fail .unfinished
  | some b =>
    if b = byte ',' then do
      skip
      if (← peekMark) = some (byte ']') then fail .malformed
      else return ⟨.value, .array items :: stack⟩
    else if b = byte ']' then do
      skip
      return ⟨.after (.array items.reverse), stack⟩
    else fail .malformed

/-- After a field of an object: the next one, or the end. -/
def afterField (m : Manner) (fields : List (String × Json)) (stack : List Frame) :
    Reader Progress := do
  match ← peekMark with
  | none => fail .unfinished
  | some b =>
    if b = byte ',' then do
      skip
      match ← peekMark with
      | none => fail .unfinished
      | some b =>
        if b = byte '"' then do
          let key ← keyAndColon m
          return ⟨.value, .object fields key :: stack⟩
        else fail .malformed
    else if b = byte '}' then do
      skip
      return ⟨.after (.object fields), stack⟩
    else fail .malformed

def valueRound (m : Manner) (p : Progress) : Reader (Progress ⊕ Json) := do
  match p.goal, p.stack with
  | .value, stack => return .inl (← startValue m stack)
  | .after v, [] => return .inr v
  | .after v, .array items :: stack => return .inl (← afterItem (v :: items) stack)
  | .after v, .object fields key :: stack =>
    return .inl (← afterField m (Ascending.insertEntry key v fields) stack)

def valueIn (m : Manner) : Reader Json := loop (valueRound m) ⟨.value, []⟩

def value : Reader Json := valueIn .wanted

/-- A value of any form, of which nothing is kept. -/
def passValue : Reader Unit := do
  let _ ← valueIn .leftOut
  return ()

/-- A reader for a whole text: blanks may come before and after. -/
def whole {α : Type} (r : Reader α) : Reader α := do
  let x ← r
  blank
  return x

end Reader

def parse (bytes : Bytes) : Except Fault Json := Reader.value.whole.run bytes

end GraphSplice.Json
