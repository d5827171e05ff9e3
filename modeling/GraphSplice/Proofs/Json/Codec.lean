import GraphSplice.Json.Codec

/-!
What may be counted on of a codec: the keys of what it reads ascend, and it reads back the records
that it writes. A record is an object of scalars that are written neither with escapes nor with
loss, and only of such is anything asked.
-/

namespace GraphSplice

namespace Text

/-- One byte long, neither a control character nor one with a meaning between quotes. -/
def IsPlainChar (c : Char) : Prop := 0x20 ≤ c.toNat ∧ c.toNat < 0x80 ∧ c ≠ '"' ∧ c ≠ '\\'

instance (c : Char) : Decidable (IsPlainChar c) := inferInstanceAs (Decidable (_ ∧ _ ∧ _ ∧ _))

def IsPlain (s : String) : Prop := ∀ c ∈ s.toList, IsPlainChar c

instance (s : String) : Decidable (IsPlain s) := List.decidableBAll _ _

end Text

namespace Json

/-- The keys of an object ascend, and no key comes twice. Other values have no keys. -/
def KeysAscend : Json → Prop
  | .object fields => (fields.map (·.1)).Pairwise (· < ·)
  | _ => True

/-- The scalars whose written form is read back as they are. -/
inductive Simple : Json → Prop where
  | null : Simple .null
  | bool (b : Bool) : Simple (.bool b)
  | nat {n : Nat} (fits : n ≤ wordBound) : Simple (.nat n)
  | text {s : String} (plain : Text.IsPlain s) : Simple (.text s)

/-- A record: an object of simple values under plain keys. -/
def IsRecord (fields : List (String × Json)) : Prop :=
  ∀ field ∈ fields, Text.IsPlain field.1 ∧ Simple field.2

class LawfulCodec [Codec] : Prop where
  keysAscend_of_parse {document : Bytes} {value : Json}
    (parsed : Codec.parse document = .ok value) : value.KeysAscend
  /-- Under each key of a record stands what was written under it last. -/
  parse_print {fields : List (String × Json)} (record : IsRecord fields) :
    ∃ stored, Codec.parse (Codec.print (.object fields)) = .ok (.object stored) ∧
      ∀ key, stored.lookup key = fields.reverse.lookup key
  /-- The empty text is no value. -/
  parse_nil (value : Json) : Codec.parse [] ≠ .ok value
  word?_eq_some_iff {value : Json} {n : Nat} :
    Codec.word? value = some n ↔ value = .nat n ∧ n ≤ wordBound
  flag?_eq_some_iff {value : Json} {b : Bool} : Codec.flag? value = some b ↔ value = .bool b

end Json

end GraphSplice
