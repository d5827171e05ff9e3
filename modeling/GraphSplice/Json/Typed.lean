import GraphSplice.Handle
import GraphSplice.Json.Value
import GraphSplice.Pattern

/-!
Reading values of a known type straight from the text. A value of another type is refused as soon
as it is seen, before the rest of the text is looked at.
-/

namespace GraphSplice.Json.Reader

variable {α : Type}

/-- Refuses a value that is not of the wanted type. A scalar is read to its end first, and its
own faults come before. -/
def refuse : Reader α := do
  match ← peekMark with
  | none => fail .unfinished
  | some b =>
    if b = byte '[' ∨ b = byte '{' then fail .mistyped
    else do
      let _ ← scalar .wanted b
      fail .mistyped

/-- An integer from 0 to `bound`. -/
def natUpTo (bound : Nat) : Reader Nat := do
  match ← peekMark with
  | none => fail .unfinished
  | some b =>
    if b = byte '-' ∨ isDigit b then do
      match ← scalar .wanted b with
      | .number (.integer n) =>
        if 0 ≤ n ∧ n.toNat ≤ bound then return n.toNat else fail .mistyped
      | _ => fail .mistyped
    else refuse

def flag : Reader Bool := do
  match ← peekMark with
  | none => fail .unfinished
  | some b =>
    if b = byte 't' ∨ b = byte 'f' then do
      match ← scalar .wanted b with
      | .bool x => return x
      | _ => fail .mistyped
    else refuse

/-- A value, or none for null. -/
def optional (r : Reader α) : Reader (Option α) := do
  if (← peekMark) = some (byte 'n') then do
    let _ ← scalar .wanted (byte 'n')
    return none
  else return some (← r)

def nothing : Reader Unit := do
  match ← optional (refuse : Reader Unit) with
  | none => return ()
  | some _ => fail .mistyped

/-- A text that names a value. -/
def named (ofName? : String → Option α) : Reader α := do
  if (← peekMark) = some (byte '"') then do
    skip
    match ofName? (← text) with
    | none => fail .mistyped
    | some x => return x
  else refuse

/-- One of several constants: its name, or an object with its name as the key of null. Anything
else is malformed. -/
def constant (ofName? : String → Option α) : Reader α := do
  match ← peekMark with
  | none => fail .unfinished
  | some b =>
    if b = byte '"' then named ofName?
    else if b = byte '{' then do
      skip
      let x ← named ofName?
      mark ':'
      nothing
      mark '}'
      return x
    else fail .malformed

/-- A handle is written as its number. -/
def handle (kind : Kind) : Reader (Handle kind) := do
  return ⟨← natUpTo 4294967295⟩

end Reader

end GraphSplice.Json

namespace GraphSplice.Role

def ofName? (s : String) : Option Role :=
  [kept, cut, added].find? fun role => role.name = s

end GraphSplice.Role
