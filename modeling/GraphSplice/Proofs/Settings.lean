import GraphSplice.Profile.Access
import GraphSplice.Proofs.Json.Codec
import GraphSplice.Proofs.Lists

/-!
Settings survive being stored: what is written of valid settings is read back as the same
settings, through any codec that obeys the laws.
-/

namespace GraphSplice

open Json

namespace Settings

/-- The limit, if there is one, fits its word. -/
def FitsWord (s : Settings) : Prop := ∀ limit ∈ s.matchLimit, limit ≤ limitBound

/-- A limit of zero would find nothing. -/
def IsValid (s : Settings) : Prop := s.matchLimit ≠ some 0

instance (s : Settings) : Decidable s.IsValid := inferInstanceAs (Decidable (_ ≠ _))

variable {s : Settings}

theorem checkLimit_of_isValid (valid : s.IsValid) : s.checkLimit = .ok () := if_neg valid

def limitField (s : Settings) : Json := (s.matchLimit.map Json.nat).getD .null

/-- The fields as they are written. -/
def fields (s : Settings) : List (String × Json) :=
  [("parity_check", .text s.parity.name), ("match_limit", s.limitField),
    ("trace_pregraph", .bool s.showWiring)]

theorem toJson_eq : s.toJson = .object s.fields := rfl

theorem simple_limitField (fits : s.FitsWord) : Simple s.limitField := by
  unfold limitField
  cases limited : s.matchLimit with
  | none => exact .null
  | some limit => exact .nat (fits limit limited)

theorem isRecord_fields (fits : s.FitsWord) : IsRecord s.fields := by
  have keys : Text.IsPlain "parity_check" ∧ Text.IsPlain "match_limit" ∧
      Text.IsPlain "trace_pregraph" := by decide
  have plain : Text.IsPlain s.parity.name := by
    cases s.parity <;> decide
  obtain ⟨parityKey, limitKey, showWiringKey⟩ := keys
  exact List.forall_mem_cons.mpr ⟨⟨parityKey, .text plain⟩,
    List.forall_mem_cons.mpr ⟨⟨limitKey, simple_limitField fits⟩,
      List.forall_mem_singleton.mpr ⟨showWiringKey, .bool s.showWiring⟩⟩⟩

variable [Codec]

/-- Only null is read without the codec. -/
theorem limitOf_some {x : Json} (notNull : x ≠ .null) :
    limitOf (some x) = ((Codec.word? x).elim (.error .mistyped) fun n => .ok (some n)) := by
  unfold limitOf
  split
  · next absent => cases absent
  · next null => exact absurd (Option.some.inj null) notNull
  · next present =>
    cases present
    cases Codec.word? x <;> rfl

theorem showWiringOf_some (x : Json) :
    showWiringOf (some x) = ((Codec.flag? x).elim (.error .mistyped) .ok) := by
  rw [showWiringOf]
  cases Codec.flag? x <;> rfl

variable [LawfulCodec]

theorem limitOf_limitField (fits : s.FitsWord) :
    limitOf (some s.limitField) = .ok s.matchLimit := by
  unfold limitField
  cases limited : s.matchLimit with
  | none => rfl
  | some limit =>
    have decoded : Codec.word? (.nat limit) = some limit :=
      LawfulCodec.word?_eq_some_iff.mpr ⟨rfl, fits limit limited⟩
    have notNull : nat limit ≠ .null := nofun
    rw [Option.map_some, Option.getD_some, limitOf_some notNull, decoded, Option.elim_some]

/-- What is stored of the fields, in whatever order, is read as the settings. -/
theorem ofJson_of_lookup {stored : List (String × Json)}
    (found : ∀ key, stored.lookup key = s.fields.reverse.lookup key) (fits : s.FitsWord)
    (valid : s.IsValid) : ofJson (.object stored) = .ok s := by
  have known : stored.find? (fun field => field.1 ∉ knownKeys) = none := by
    rw [List.find?_eq_none]
    intro field mem
    have there : field.1 ∈ s.fields.reverse.map (·.1) := by
      rw [← isSome_lookup_iff, ← found, isSome_lookup_iff]
      exact List.mem_map_of_mem mem
    simp only [fields, List.map_reverse, List.mem_reverse, List.map_cons, List.map_nil] at there
    rw [decide_eq_true_iff, not_not]
    exact there
  have parity : parityOf (stored.lookup "parity_check") = .ok s.parity := by
    rw [found]
    simp [fields, List.lookup_cons, parityOf, ParityPolicy.ofName?_name]
  have limit : limitOf (stored.lookup "match_limit") = .ok s.matchLimit := by
    rw [found]
    simpa [fields, List.lookup_cons] using limitOf_limitField fits
  have showWiring : showWiringOf (stored.lookup "trace_pregraph") = .ok s.showWiring := by
    have decoded : Codec.flag? (.bool s.showWiring) = some s.showWiring :=
      LawfulCodec.flag?_eq_some_iff.mpr rfl
    rw [found]
    simp [fields, showWiringOf_some, decoded]
  rw [ofJson, known]
  simp only [parity, limit, showWiring]
  change (fun _ => s) <$> s.checkLimit = .ok s
  rw [checkLimit_of_isValid valid]
  rfl

end Settings

namespace Profile

variable {s : Settings}

theorem validate_of_isValid (name : ProfileName) (valid : s.IsValid) :
    validate name s = .ok () := by
  rw [validate, Settings.checkLimit_of_isValid valid]

variable [Codec] [LawfulCodec]

/-- What is stored of valid settings is read as a value that stands for them. -/
theorem exists_parse_encode (fits : s.FitsWord) (valid : s.IsValid) :
    ∃ value, Codec.parse (encode s) = .ok value ∧ Settings.ofJson value = .ok s := by
  obtain ⟨stored, read, found⟩ := LawfulCodec.parse_print (Settings.isRecord_fields fits)
  rw [encode, Settings.toJson_eq]
  exact ⟨_, read, Settings.ofJson_of_lookup found fits valid⟩

theorem decode_encode (name : ProfileName) (fits : s.FitsWord) (valid : s.IsValid) :
    decode name (encode s) = .ok s := by
  obtain ⟨value, read, settings⟩ := exists_parse_encode fits valid
  rw [decode, read]
  simp only [settings]

theorem encode_ne_nil (fits : s.FitsWord) (valid : s.IsValid) : encode s ≠ [] := by
  obtain ⟨value, read, -⟩ := exists_parse_encode fits valid
  intro empty
  rw [empty] at read
  exact LawfulCodec.parse_nil value read

end Profile

end GraphSplice
