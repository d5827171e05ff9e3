import GraphSplice.Proofs.Json.Keys
import GraphSplice.Proofs.Json.Scalar

/-!
Records read back: an object of simple values, once written, is read as the same fields in the
order of their keys. The reader goes through the fields one round at a time, with the object still
open on its stack. With that the reader and the writer of this library obey the laws of a codec.
-/

namespace GraphSplice.Json

open Text Reader

theorem encode_toString (n : Nat) :
    Utf8.encode (toString (n : Int)) = (Nat.toDigits 10 n).map byte := by
  have small : ∀ c ∈ Nat.toDigits 10 n, c.toNat < 0x80 := by
    intro c mem
    have range := toNat_of_mem_toDigits mem
    omega
  have written : toString (n : Int) = String.ofList (Nat.toDigits 10 n) := by
    rw [← Nat.repr_eq_ofList_toDigits]
    rfl
  rw [written, Utf8.encode_ofList small]

/-- A byte with which a scalar starts: a mark of its own and no bracket. -/
def StartsScalar (b : UInt8) : Prop := isBlank b = false ∧ b ≠ byte '[' ∧ b ≠ byte '{'

instance (b : UInt8) : Decidable (StartsScalar b) := inferInstanceAs (Decidable (_ ∧ _ ∧ _))

theorem ne_byte_of_isDigit {b : UInt8} {c : Char} (numeric : isDigit b = true)
    (other : isDigit (byte c) = false) : b ≠ byte c := by
  intro same
  rw [same, other] at numeric
  cases numeric

theorem startsScalar_of_isDigit {b : UInt8} (numeric : isDigit b = true) : StartsScalar b := by
  have isNot (c : Char) (other : isDigit (byte c) = false) : b ≠ byte c :=
    ne_byte_of_isDigit numeric other
  refine ⟨?_, isNot '[' (by decide), isNot '{' (by decide)⟩
  simp [isBlank, isNot ' ' (by decide), isNot '\n' (by decide), isNot '\t' (by decide),
    isNot '\r' (by decide)]

/-- The scalar written as these bytes is read back, whatever comes after them. -/
def ReadsBack (v : Json) (written : Bytes) : Prop :=
  ∃ b tail, written = b :: tail ∧ StartsScalar b ∧
    ∀ rest, EndsNumber rest → (scalar .wanted b).Reads (written ++ rest) v rest

theorem readsBack_word {v : Json} {c : Char} {letters : List Char} (starts : StartsScalar (byte c))
    (expected : scalar .wanted (byte c) = do
      word (c :: letters)
      return v) :
    ReadsBack v ((c :: letters).map byte) := by
  refine ⟨byte c, letters.map byte, rfl, starts, ?_⟩
  intro rest _
  rw [expected]
  exact (reads_word (c :: letters) rest).bind (reads_pure v rest)

theorem readsBack_nat {n : Nat} (fits : n ≤ significandBound) :
    ReadsBack (.nat n) ((Nat.toDigits 10 n).map byte) := by
  cases written : Nat.toDigits 10 n with
  | nil => exact absurd written Nat.toDigits_ne_nil
  | cons d ds =>
    have numeric : isDigit (byte d) = true :=
      (isDigit_byte (written ▸ List.mem_cons_self : d ∈ Nat.toDigits 10 n)).1
    have isNot (c : Char) (other : isDigit (byte c) = false) : byte d ≠ byte c :=
      ne_byte_of_isDigit numeric other
    refine ⟨byte d, ds.map byte, rfl, startsScalar_of_isDigit numeric, ?_⟩
    intro rest ended
    have read := reads_number fits ended
    rw [written] at read
    rw [scalar, if_neg (isNot 'n' (by decide)), if_neg (isNot 't' (by decide)),
      if_neg (isNot 'f' (by decide)), if_neg (isNot '"' (by decide)),
      if_neg (isNot '-' (by decide)), if_pos numeric]
    exact read.bind (reads_pure _ rest)

theorem readsBack_text {s : String} (plain : IsPlain s) :
    ReadsBack (.text s) (byte '"' :: Utf8.encode s ++ [byte '"']) := by
  refine ⟨byte '"', Utf8.encode s ++ [byte '"'], rfl, by decide, ?_⟩
  intro rest _
  have read := reads_text plain rest
  refine (reads_skip (byte '"') _).bind (.bind ?_ (reads_pure (Json.text s) rest))
  simpa [scalarText, Manner.wanted] using read

theorem Simple.readsBack {v : Json} (simple : Simple v) (depth : Nat) :
    ReadsBack v (Utf8.encode (v.indented depth)) := by
  cases simple with
  | null =>
    have written : Utf8.encode "null" = ['n', 'u', 'l', 'l'].map byte := by decide
    rw [indented, written]
    exact readsBack_word (by decide) rfl
  | bool b =>
    cases b with
    | true =>
      have written : Utf8.encode (toString true) = ['t', 'r', 'u', 'e'].map byte := by decide
      rw [indented, written]
      exact readsBack_word (by decide) rfl
    | false =>
      have written : Utf8.encode (toString false) = ['f', 'a', 'l', 's', 'e'].map byte := by decide
      rw [indented, written]
      exact readsBack_word (by decide) rfl
  | @nat n fits =>
    have written : Utf8.encode ((Json.nat n).indented depth) = (Nat.toDigits 10 n).map byte :=
      encode_toString n
    rw [written]
    exact readsBack_nat fits
  | @text s plain =>
    have quote : Utf8.encode "\"" = [byte '"'] := by decide
    rw [indented, renderText_of_plain plain, Utf8.encode_append, Utf8.encode_append, quote]
    exact readsBack_text plain

/-! ## Records as they are written -/

/-- A field on a line of its own, and what follows it. -/
def line (field : String × Json) (rest : Bytes) : Bytes :=
  [' ', ' '].map byte ++ (byte '"' :: Utf8.encode field.1 ++ byte '"' :: byte ':' ::
    ([byte ' '] ++ Utf8.encode (field.2.indented 1) ++ rest))

/-- What is left of a written object after a value of it, the further fields given. -/
def remaining : List (String × Json) → Bytes
  | [] => ['\n', '}'].map byte
  | field :: fields => [',', '\n'].map byte ++ line field (remaining fields)

theorem endsNumber_remaining (fields : List (String × Json)) : EndsNumber (remaining fields) := by
  cases fields with
  | nil =>
    intro b mem
    cases mem
    decide
  | cons field fields =>
    intro b mem
    cases mem
    decide

theorem indentedFields_eq (depth : Nat) (fields : List (String × Json)) :
    indentedFields depth fields =
      fields.map fun field => renderText field.1 ++ ": " ++ field.2.indented depth := by
  induction fields with
  | nil => rfl
  | cons field fields ih => rw [indentedFields, ih, List.map_cons]

/-- A field as the writer lays it out. -/
def entry (field : String × Json) : String :=
  margin 1 ++ (renderText field.1 ++ ": " ++ field.2.indented 1)

theorem encode_entry {field : String × Json} (plain : IsPlain field.1)
    (rest : Bytes) : Utf8.encode (entry field) ++ rest = line field rest := by
  have indent : Utf8.encode (margin 1) = [byte ' ', byte ' '] := by decide
  have quote : Utf8.encode "\"" = [byte '"'] := by decide
  have colon : Utf8.encode ": " = [byte ':', byte ' '] := by decide
  simp [entry, line, renderText_of_plain plain, indent, quote, colon]

/-- The entries with the commas between them, and the end of the object. -/
theorem encode_entries {field : String × Json} {fields : List (String × Json)}
    (record : IsRecord (field :: fields)) :
    Utf8.encode (",\n".intercalate ((field :: fields).map entry)) ++ ['\n', '}'].map byte =
      line field (remaining fields) := by
  induction fields generalizing field with
  | nil =>
    obtain ⟨⟨plain, -⟩, -⟩ := List.forall_mem_cons.mp record
    exact encode_entry plain _
  | cons other fields ih =>
    obtain ⟨⟨plain, -⟩, further⟩ := List.forall_mem_cons.mp record
    have separator : Utf8.encode ",\n" = [',', '\n'].map byte := by decide
    rw [List.map_cons, List.map_cons, String.intercalate_cons_cons, ← List.map_cons,
      Utf8.encode_append, Utf8.encode_append, List.append_assoc, ih further, separator,
      List.append_assoc, encode_entry plain]
    rfl

theorem encode_pretty {field : String × Json} {fields : List (String × Json)}
    (record : IsRecord (field :: fields)) :
    Utf8.encode (pretty (.object (field :: fields))) =
      ['{', '\n'].map byte ++ line field (remaining fields) := by
  have nonempty : indentedFields 1 (field :: fields) ≠ [] := nofun
  have closing : Utf8.encode "\n" ++ (Utf8.encode (margin 0) ++ Utf8.encode "\x7d") =
    ['\n', '}'].map byte := by decide
  have entries : (indentedFields 1 (field :: fields)).map (margin 1 ++ ·) =
      (field :: fields).map entry := by
    rw [indentedFields_eq, List.map_map]
    rfl
  rw [pretty, indented, block, if_neg nonempty, entries, ← encode_entries record]
  simp only [Utf8.encode_append, List.append_assoc, closing]
  rfl

/-! ## The rounds of an object -/

theorem Simple.reads_startValue {v : Json} (simple : Simple v) (depth : Nat) (gap : Bytes)
    {rest : Bytes} (blanks : gap.all isBlank = true) (ended : EndsNumber rest)
    (stack : List Frame) :
    (startValue .wanted stack).Reads (gap ++ Utf8.encode (v.indented depth) ++ rest)
      ⟨.after v, stack⟩ rest := by
  obtain ⟨b, tail, written, ⟨marked, notArray, notObject⟩, read⟩ := simple.readsBack depth
  rw [written] at read ⊢
  rw [List.append_assoc, List.cons_append]
  refine (reads_peekMark gap blanks marked).bind ?_
  simp only [notArray, notObject, or_self, if_false]
  exact (read rest ended).bind (reads_pure _ rest)

/-- A key between quotes, its opening quote seen, with its colon. -/
theorem reads_keyAndColon {key : String} (plain : IsPlain key) (rest : Bytes) :
    (keyAndColon .wanted).Reads
      (byte '"' :: Utf8.encode key ++ byte '"' :: byte ':' :: rest) key rest := by
  have read : (scalarText .wanted).Reads (Utf8.encode key ++ byte '"' :: byte ':' :: rest) key
      (byte ':' :: rest) := reads_text plain _
  refine (reads_skip (byte '"') _).bind (read.bind ?_)
  exact (reads_mark (by decide) rest).bind (reads_pure key rest)

theorem reads_afterField {fields : List (String × Json)} {next : String × Json}
    (plain : IsPlain next.1) (rest : Bytes) :
    (afterField .wanted fields []).Reads ([',', '\n'].map byte ++ line next rest)
      ⟨.value, [.object fields next.1]⟩
      ([byte ' '] ++ Utf8.encode (next.2.indented 1) ++ rest) := by
  refine (reads_peekMark [] rfl (by decide)).bind ?_
  simp only [if_true]
  refine (reads_skip (byte ',') _).bind ?_
  refine (reads_peekMark (['\n', ' ', ' '].map byte) (by decide) (by decide)).bind ?_
  simp only [if_true]
  exact (reads_keyAndColon plain _).bind (reads_pure _ _)

theorem reads_lastField (fields : List (String × Json)) :
    (afterField .wanted fields []).Reads (remaining []) ⟨.after (.object fields), []⟩ [] := by
  refine (reads_peekMark [byte '\n'] (by decide) (by decide)).bind ?_
  have notComma : byte '}' ≠ byte ',' := by decide
  simp only [notComma, if_true, if_false]
  exact (reads_skip (byte '}') []).bind (reads_pure _ _)

theorem reads_openObject {first : String × Json} (plain : IsPlain first.1)
    (rest : Bytes) :
    (startValue .wanted []).Reads (['{', '\n'].map byte ++ line first rest)
      ⟨.value, [.object [] first.1]⟩
      ([byte ' '] ++ Utf8.encode (first.2.indented 1) ++ rest) := by
  refine (reads_peekMark [] rfl (by decide)).bind ?_
  have notArray : byte '{' ≠ byte '[' := by decide
  have notClosed : byte '"' ≠ byte '}' := by decide
  have opens : mayOpen .wanted [] = true := by decide
  simp only [or_true, if_true, opens, not_true, notArray, if_false]
  refine (reads_skip (byte '{') _).bind ?_
  refine (reads_peekMark (['\n', ' ', ' '].map byte) (by decide) (by decide)).bind ?_
  simp only [notClosed, if_true, if_false]
  exact (reads_keyAndColon plain _).bind (reads_pure _ _)

/-! ## Whole records -/

/-- Fields in the order of their keys, a later field in place of an earlier one of its key. -/
def byKey (sofar fields : List (String × Json)) : List (String × Json) :=
  fields.foldl (fun sofar field => Ascending.insertEntry field.1 field.2 sofar) sofar

theorem Simple.reads_fieldValue {v : Json} (simple : Simple v) {sofar : List (String × Json)}
    {key : String} {fields : List (String × Json)} {x : Json} {rest : Bytes}
    (others : (loop (valueRound .wanted) ⟨.after v, [.object sofar key]⟩).Reads
      (remaining fields) x rest) :
    (loop (valueRound .wanted) ⟨.value, [.object sofar key]⟩).Reads
      ([byte ' '] ++ Utf8.encode (v.indented 1) ++ remaining fields) x rest := by
  have read := simple.reads_startValue 1 [byte ' '] (by decide)
    (endsNumber_remaining fields) [.object sofar key]
  refine .step (read.bind (reads_pure _ _)) ?_ others
  simp only [List.length_append, List.length_cons]
  omega

theorem reads_fields {field : String × Json} {fields : List (String × Json)}
    (record : IsRecord (field :: fields)) (sofar : List (String × Json)) :
    (loop (valueRound .wanted) ⟨.value, [.object sofar field.1]⟩).Reads
      ([byte ' '] ++ Utf8.encode (field.2.indented 1) ++ remaining fields)
      (.object (byKey sofar (field :: fields))) [] := by
  -- Each field takes two rounds: its value, and the key of the next field or the closing brace.
  induction fields generalizing field sofar with
  | nil =>
    obtain ⟨⟨-, simple⟩, -⟩ := List.forall_mem_cons.mp record
    refine simple.reads_fieldValue ?_
    refine .step ((reads_lastField _).bind (reads_pure _ _)) (by decide) ?_
    exact .done (reads_pure _ _)
  | cons next fields ih =>
    obtain ⟨⟨-, simple⟩, further⟩ := List.forall_mem_cons.mp record
    obtain ⟨⟨plain, -⟩, -⟩ := List.forall_mem_cons.mp further
    refine simple.reads_fieldValue ?_
    refine .step ((reads_afterField plain _).bind (reads_pure _ _)) ?_ (ih further _)
    simp only [remaining, line, List.map_cons, List.length_append, List.length_cons]
    omega

theorem lookup_byKey (key : String) (sofar fields : List (String × Json)) :
    (byKey sofar fields).lookup key = (fields.reverse.lookup key).or (sofar.lookup key) := by
  induction fields generalizing sofar with
  | nil => rfl
  | cons field fields ih =>
    obtain ⟨k, v⟩ := field
    change (byKey (Ascending.insertEntry k v sofar) fields).lookup key = _
    rw [ih, Ascending.lookup_insertEntry, List.reverse_cons, List.lookup_append, lookup_cons_eq,
      List.lookup_nil, Option.or_assoc]
    split <;> rfl

theorem reads_emptyObject :
    (startValue .wanted []).Reads (['{', '}'].map byte) ⟨.after (.object []), []⟩ [] := by
  refine (reads_peekMark [] rfl (by decide)).bind ?_
  have notArray : byte '{' ≠ byte '[' := by decide
  have opens : mayOpen .wanted [] = true := by decide
  simp only [or_true, if_true, opens, not_true, notArray, if_false]
  refine (reads_skip (byte '{') _).bind ?_
  refine (reads_peekMark [] rfl (by decide)).bind ?_
  simp only [if_true]
  exact (reads_skip (byte '}') []).bind (reads_pure _ _)

/-- A record is read back with its fields in the order of their keys. -/
theorem parse_pretty {fields : List (String × Json)} (record : IsRecord fields) :
    parse (Utf8.encode (pretty (.object fields))) = .ok (.object (byKey [] fields)) := by
  have read : value.Reads (Utf8.encode (pretty (.object fields))) (.object (byKey [] fields)) [] := by
    cases fields with
    | nil =>
      refine .step (reads_emptyObject.bind (reads_pure _ _)) (by decide) ?_
      exact .done (reads_pure _ _)
    | cons field fields =>
      obtain ⟨⟨plain, -⟩, -⟩ := List.forall_mem_cons.mp record
      rw [encode_pretty record]
      refine .step (.bind (reads_openObject plain _) (reads_pure _ _)) ?_ (reads_fields record [])
      simp [line]
      omega
  refine Reads.run (read.bind (.bind (reads_blank [] rfl (by simp)) ?_))
  exact reads_pure _ []

theorem parse_nil : parse [] = .error .unfinished := by
  have first : Reader.value [] = .error .unfinished := by
    rw [Reader.value, valueIn, loop]
    rfl
  have whole : Reader.value.whole [] = .error .unfinished := by
    simp only [Reader.whole, Bind.bind, Reader.bind, first]
  rw [parse, Reader.run, whole]

/-! ## The laws of a codec -/

theorem word?_eq_some_iff {value : Json} {n : Nat} :
    word? value = some n ↔ value = .nat n ∧ n ≤ wordBound := by
  unfold word?
  split
  · next k =>
    simp only [Option.ite_none_right_eq_some, Option.some.injEq, nat, number.injEq,
      Number.integer.injEq]
    omega
  · next other =>
    refine ⟨nofun, ?_⟩
    rintro ⟨rfl, -⟩
    exact absurd rfl (other n)

theorem flag?_eq_some_iff {value : Json} {b : Bool} : flag? value = some b ↔ value = .bool b := by
  cases value <;> simp [flag?]

instance : LawfulCodec where
  keysAscend_of_parse := keysAscend_of_parse
  parse_print record := ⟨_, parse_pretty record, fun key => by rw [lookup_byKey]; exact Option.or_none⟩
  parse_nil value read := nomatch parse_nil.symm.trans read
  word?_eq_some_iff := word?_eq_some_iff
  flag?_eq_some_iff := flag?_eq_some_iff

end GraphSplice.Json
