import GraphSplice.Json.Decimal

/-!
JSON values and their two written forms, compact and indented.
-/

namespace GraphSplice

inductive Number where
  | integer (n : Int)
  | real (x : Float)

inductive Json where
  | null
  | bool (b : Bool)
  | number (n : Number)
  | text (s : String)
  | array (items : List Json)
  | object (fields : List (String × Json))

namespace Json

def nat (n : Nat) : Json := .number (.integer n)

/-! ## Scalars -/

/-- Reals are positional from `1e-5` up to `1e16`. -/
def layout : Decimals.Layout := ⟨-5, 15⟩

def renderReal (x : Float) : String :=
  let bits := x.toBits.toNat
  let sign := if bits / twoTo 63 = 1 then "-" else ""
  let b := Decimals.Binary.ofBits bits
  sign ++ if b.significand = 0 then "0.0" else layout.render b.shortest

def renderNumber : Number → String
  | .integer n => toString n
  | .real x => renderReal x

def lowHex (n : Nat) : List Char :=
  let digits := Nat.toDigits 16 n
  List.replicate (4 - digits.length) '0' ++ digits

def escapeChar (c : Char) : List Char :=
  if c = '"' then ['\\', '"']
  else if c = '\\' then ['\\', '\\']
  else if c = '\x08' then ['\\', 'b']
  else if c = '\x0c' then ['\\', 'f']
  else if c = '\n' then ['\\', 'n']
  else if c = '\r' then ['\\', 'r']
  else if c = '\t' then ['\\', 't']
  else if c.toNat < 0x20 then '\\' :: 'u' :: lowHex c.toNat
  else [c]

def renderText (s : String) : String :=
  "\"" ++ String.ofList (s.toList.flatMap escapeChar) ++ "\""

/-! ## Compact form -/

mutual

def compact : Json → String
  | .null => "null"
  | .bool b => toString b
  | .number n => renderNumber n
  | .text s => renderText s
  | .array items => "[" ++ ",".intercalate (compactItems items) ++ "]"
  | .object fields => "\x7b" ++ ",".intercalate (compactFields fields) ++ "\x7d"

def compactItems : List Json → List String
  | [] => []
  | item :: rest => compact item :: compactItems rest

def compactFields : List (String × Json) → List String
  | [] => []
  | (key, value) :: rest => (renderText key ++ ":" ++ compact value) :: compactFields rest

end

/-! ## Indented form -/

def margin (depth : Nat) : String := String.ofList (List.replicate (2 * depth) ' ')

/-- Entries one to a line between brackets; nothing between them if there are none. -/
def block (depth : Nat) (opening closing : String) (entries : List String) : String :=
  if entries = [] then opening ++ closing
  else
    opening ++ "\n" ++ ",\n".intercalate (entries.map (margin (depth + 1) ++ ·)) ++ "\n" ++
      margin depth ++ closing

mutual

def indented (depth : Nat) : Json → String
  | .null => "null"
  | .bool b => toString b
  | .number n => renderNumber n
  | .text s => renderText s
  | .array items => block depth "[" "]" (indentedItems (depth + 1) items)
  | .object fields => block depth "\x7b" "\x7d" (indentedFields (depth + 1) fields)

def indentedItems (depth : Nat) : List Json → List String
  | [] => []
  | item :: rest => indented depth item :: indentedItems depth rest

def indentedFields (depth : Nat) : List (String × Json) → List String
  | [] => []
  | (key, value) :: rest =>
    (renderText key ++ ": " ++ indented depth value) :: indentedFields depth rest

end

def pretty (j : Json) : String := j.indented 0

end Json

end GraphSplice
