import GraphSplice.Proofs.Lists
import GraphSplice.Proofs.Profile.Calls

/-!
Which documents are settings. A document is told by its fields alone: what it must be like, the
settings that it stands for, and the faults that it may have. The reader accepts exactly the
documents without a fault, and of several faults it reports the one that comes first.
-/

namespace GraphSplice

/-- An object with this field. -/
def Json.Has (value : Json) (key : String) (x : Json) : Prop :=
  ∃ fields, value = .object fields ∧ (key, x) ∈ fields

namespace Settings

/-- A parity policy is its name; a limit is null or an integer from 1 to the greatest word. -/
structure IsDocument (value : Json) : Prop where
  object : ∃ fields, value = .object fields
  known : ∀ key x, value.Has key x →
    key = "parity_check" ∨ key = "match_limit" ∨ key = "trace_pregraph"
  parity : ∀ x, value.Has "parity_check" x → x = .text "always" ∨ x = .text "when_armed"
  limit : ∀ x, value.Has "match_limit" x →
    x = .null ∨ ∃ n : Nat, 1 ≤ n ∧ n ≤ twoTo 64 - 1 ∧ x = .number (.integer n)
  showWiring : ∀ x, value.Has "trace_pregraph" x → ∃ b, x = .bool b

/-- A field that is present holds the setting as it is written; without one the setting is the
default. -/
def Gives {α : Type} (present : Json → Prop) (written : α → Json) (default actual : α) : Prop :=
  (∀ x, present x → x = written actual) ∧ ((∀ x, ¬ present x) → actual = default)

/-- The document stands for these settings. -/
structure Describes (value : Json) (s : Settings) : Prop where
  parity : Gives (value.Has "parity_check") (fun p : ParityPolicy => .text p.name) .always s.parity
  limit : Gives (value.Has "match_limit")
    (fun limit : Option Nat => (limit.map Json.nat).getD .null) none s.matchLimit
  showWiring : Gives (value.Has "trace_pregraph") Json.bool false s.showWiring

/-- What may be wrong with a document, each fault regardless of the others. -/
inductive Faulty (value : Json) : DocumentError → Prop where
  | notAnObject (other : ∀ fields, value ≠ .object fields) : Faulty value .notAnObject
  | unknownKey {key : String} {x : Json} (present : value.Has key x) (unknown : key ∉ knownKeys)
      (least : ∀ other y, value.Has other y → other ∉ knownKeys → key ≤ other) :
      Faulty value (.unknownKey key)
  | parity {x : Json} (present : value.Has "parity_check" x)
      (wrong : x ≠ .text "always" ∧ x ≠ .text "when_armed") : Faulty value (.invalidParity x)
  | limit {x : Json} (present : value.Has "match_limit" x) (notNull : x ≠ .null)
      (wrong : ∀ n : Nat, n ≤ twoTo 64 - 1 → x ≠ .number (.integer n)) : Faulty value .mistyped
  | showWiring {x : Json} (present : value.Has "trace_pregraph" x) (wrong : ∀ b, x ≠ .bool b) :
      Faulty value .mistyped
  | zeroLimit (present : value.Has "match_limit" (.number (.integer 0))) : Faulty value .zeroLimit

/-- The order in which faults are looked for. -/
def DocumentError.rank : DocumentError → Nat
  | notAnObject => 0
  | unknownKey _ => 1
  | invalidParity _ => 2
  | mistyped => 3
  | zeroLimit => 4

/-- Of the faults of a document, the one that is looked for first. -/
structure FirstFault (value : Json) (e : DocumentError) : Prop where
  faulty : Faulty value e
  first : ∀ e', Faulty value e' → e.rank ≤ e'.rank

/-! ## The fields one by one -/

section
variable {α : Type} {written : α → Json} {default actual : α}

theorem gives_none :
    Gives (· ∈ (none : Option Json)) written default actual ↔ actual = default := by
  simp [Gives]

theorem gives_some {x : Json} :
    Gives (· ∈ some x) written default actual ↔ x = written actual := by
  simp [Gives]

end

theorem parityOf_spec (field : Option Json) :
    (∃ p, parityOf field = .ok p ∧
      Gives (· ∈ field) (fun p : ParityPolicy => .text p.name) .always p) ∨
    ∃ x ∈ field, parityOf field = .error (.invalidParity x) ∧
      x ≠ .text "always" ∧ x ≠ .text "when_armed" := by
  rcases field with _ | x
  · exact .inl ⟨.always, rfl, gives_none.mpr rfl⟩
  · cases x with
    | text s =>
      cases named : ParityPolicy.ofName? s with
      | some p =>
        refine .inl ⟨p, by simp only [parityOf, named], gives_some.mpr ?_⟩
        rw [ParityPolicy.ofName?_eq_some_iff.mp named]
      | none =>
        have isNot (p : ParityPolicy) : Json.text s ≠ .text p.name := by
          rintro ⟨⟩
          rw [ParityPolicy.ofName?_name] at named
          cases named
        exact .inr ⟨_, rfl, by simp only [parityOf, named], isNot .always, isNot .whenArmed⟩
    | null | bool | number | array | object => exact .inr ⟨_, rfl, rfl, by simp⟩

section
variable [Json.Codec] [Json.LawfulCodec]

theorem limitOf_spec (field : Option Json) :
    (∃ limit, limitOf field = .ok limit ∧ (∀ n ∈ limit, n ≤ limitBound) ∧
      Gives (· ∈ field) (fun limit : Option Nat => (limit.map Json.nat).getD .null) none limit) ∨
    limitOf field = .error .mistyped ∧ ∃ x ∈ field, x ≠ .null ∧
      ∀ n : Nat, n ≤ limitBound → x ≠ .number (.integer n) := by
  rcases field with _ | x
  · exact .inl ⟨none, rfl, by simp, gives_none.mpr rfl⟩
  · by_cases null : x = .null
    · rw [null]
      exact .inl ⟨none, rfl, by simp, gives_some.mpr rfl⟩
    · rw [limitOf_some null]
      cases decoded : Json.Codec.word? x with
      | some n =>
        obtain ⟨written, bounded⟩ := Json.LawfulCodec.word?_eq_some_iff.mp decoded
        exact .inl ⟨some n, rfl, by simpa [limitBound] using bounded, gives_some.mpr written⟩
      | none =>
        refine .inr ⟨rfl, x, rfl, null, ?_⟩
        intro n bounded written
        rw [Json.LawfulCodec.word?_eq_some_iff.mpr ⟨written, bounded⟩] at decoded
        cases decoded

theorem showWiringOf_spec (field : Option Json) :
    (∃ b, showWiringOf field = .ok b ∧ Gives (· ∈ field) Json.bool false b) ∨
    showWiringOf field = .error .mistyped ∧ ∃ x ∈ field, ∀ b, x ≠ .bool b := by
  rcases field with _ | x
  · exact .inl ⟨false, rfl, gives_none.mpr rfl⟩
  · rw [showWiringOf_some]
    cases decoded : Json.Codec.flag? x with
    | some b =>
      exact .inl ⟨b, rfl, gives_some.mpr (Json.LawfulCodec.flag?_eq_some_iff.mp decoded)⟩
    | none =>
      refine .inr ⟨rfl, x, rfl, ?_⟩
      intro b written
      rw [Json.LawfulCodec.flag?_eq_some_iff.mpr written] at decoded
      cases decoded

end

/-! ## Whole documents -/

section
variable {value : Json} {fields : List (String × Json)} {e e' : DocumentError}

theorem has_object_iff {key : String} {x : Json} :
    (Json.object fields).Has key x ↔ (key, x) ∈ fields := by
  simp [Json.Has]

/-- Looking up a key finds the one field under it. -/
theorem has_eq_lookup (ascending : (Json.object fields).KeysAscend) (key : String) :
    (Json.object fields).Has key = (· ∈ fields.lookup key) := by
  have nodup : (fields.map (·.1)).Nodup := ascending.imp ne_of_lt
  funext x
  rw [has_object_iff, Option.mem_def, lookup_eq_some_iff_mem nodup]

theorem has_unique (ascending : value.KeysAscend) {key : String} {x y : Json}
    (here : value.Has key x) (there : value.Has key y) : x = y := by
  obtain ⟨fields, rfl, -⟩ := id here
  rw [has_eq_lookup ascending, Option.mem_def] at here there
  rw [here] at there
  exact Option.some.inj there

theorem mem_knownKeys_iff {key : String} : key ∈ knownKeys ↔
    key = "parity_check" ∨ key = "match_limit" ∨ key = "trace_pregraph" := by
  simp [knownKeys]

theorem IsDocument.not_faulty (document : IsDocument value) : ¬ Faulty value e := by
  rintro (other | ⟨present, unknown, -⟩ | ⟨present, always, whenArmed⟩ | ⟨present, notNull, wrong⟩ |
    ⟨present, wrong⟩ | present)
  · obtain ⟨fields, same⟩ := document.object
    exact other fields same
  · exact unknown (mem_knownKeys_iff.mpr (document.known _ _ present))
  · exact (document.parity _ present).elim always whenArmed
  · obtain null | ⟨n, -, bounded, same⟩ := document.limit _ present
    · exact notNull null
    · exact wrong n bounded same
  · obtain ⟨b, same⟩ := document.showWiring _ present
    exact wrong b same
  · obtain null | ⟨n, positive, -, same⟩ := document.limit _ present
    · cases null
    · cases n with
      | zero => omega
      | succ n => cases same

theorem Faulty.one_le_rank (faulty : Faulty (.object fields) e) : 1 ≤ e.rank := by
  cases faulty with
  | notAnObject other => exact absurd rfl (other fields)
  | unknownKey | parity | limit | showWiring | zeroLimit => simp [DocumentError.rank]

theorem Faulty.two_le_rank (known : ∀ key x, (Json.object fields).Has key x → key ∈ knownKeys)
    (faulty : Faulty (.object fields) e) : 2 ≤ e.rank := by
  have later := faulty.one_le_rank
  cases faulty with
  | notAnObject => cases later
  | unknownKey present unknown => exact absurd (known _ _ present) unknown
  | parity | limit | showWiring | zeroLimit => simp [DocumentError.rank]

theorem Faulty.three_le_rank (known : ∀ key x, (Json.object fields).Has key x → key ∈ knownKeys)
    {p : ParityPolicy}
    (parity : ∀ x, (Json.object fields).Has "parity_check" x → x = .text p.name)
    (faulty : Faulty (.object fields) e) : 3 ≤ e.rank := by
  have later := faulty.two_le_rank known
  cases faulty with
  | notAnObject | unknownKey => simp [DocumentError.rank] at later
  | parity present wrong =>
    cases p with
    | always => exact absurd (parity _ present) wrong.1
    | whenArmed => exact absurd (parity _ present) wrong.2
  | limit | showWiring | zeroLimit => simp [DocumentError.rank]

theorem Faulty.four_le_rank
    (known : ∀ key x, (Json.object fields).Has key x → key ∈ knownKeys) {s : Settings}
    (describes : Describes (.object fields) s) (fits : s.FitsWord)
    (faulty : Faulty (.object fields) e) : 4 ≤ e.rank := by
  have later := faulty.three_le_rank known describes.parity.1
  cases faulty with
  | notAnObject | unknownKey | parity => simp [DocumentError.rank] at later
  | limit present notNull wrong =>
    have written := describes.limit.1 _ present
    cases limited : s.matchLimit with
    | none => exact absurd (written.trans (by rw [limited]; rfl)) notNull
    | some n => exact absurd (written.trans (by rw [limited]; rfl)) (wrong n (fits n limited))
  | showWiring present wrong => exact absurd (describes.showWiring.1 _ present) (wrong _)
  | zeroLimit => simp [DocumentError.rank]

/-- The keys are looked through for the first unknown one, which is the least. -/
theorem find_unknown_spec (ascending : (Json.object fields).KeysAscend) :
    (fields.find? (fun field => field.1 ∉ knownKeys) = none ∧
      ∀ key x, (Json.object fields).Has key x → key ∈ knownKeys) ∨
    ∃ key x, fields.find? (fun field => field.1 ∉ knownKeys) = some (key, x) ∧
      (Json.object fields).Has key x ∧ key ∉ knownKeys ∧
      ∀ other y, (Json.object fields).Has other y → other ∉ knownKeys → key ≤ other := by
  cases found : fields.find? fun field => field.1 ∉ knownKeys with
  | none =>
    refine .inl ⟨rfl, ?_⟩
    intro key x present
    simpa using List.find?_eq_none.mp found (key, x) (has_object_iff.mp present)
  | some field =>
    obtain ⟨key, x⟩ := field
    obtain ⟨unknown, before, after, split, known⟩ := List.find?_eq_some_iff_append.mp found
    have unknown : key ∉ knownKeys := of_decide_eq_true unknown
    refine .inr ⟨key, x, rfl, has_object_iff.mpr (by simp [split]), unknown, ?_⟩
    intro other y present otherUnknown
    rw [has_object_iff, split, List.mem_append] at present
    rcases present with early | here
    · have := known _ early
      simp [otherUnknown] at this
    · rcases List.mem_cons.mp here with same | late
      · cases same
        exact le_refl _
      · have pairs : ((key, x) :: after).Pairwise fun f g => f.1 < g.1 := by
          have all := List.pairwise_map.mp (show (fields.map (·.1)).Pairwise (· < ·) from ascending)
          rw [split] at all
          exact (List.pairwise_append.mp all).2.1
        exact le_of_lt (List.rel_of_pairwise_cons pairs late)

theorem isDocument_of_describes
    (known : ∀ key x, (Json.object fields).Has key x → key ∈ knownKeys) {s : Settings}
    (describes : Describes (.object fields) s) (fits : s.FitsWord) (valid : s.IsValid) :
    IsDocument (.object fields) where
  object := ⟨fields, rfl⟩
  known key x present := mem_knownKeys_iff.mp (known key x present)
  parity x present := by
    have written := describes.parity.1 x present
    cases named : s.parity with
    | always => exact .inl (by rw [written, named]; rfl)
    | whenArmed => exact .inr (by rw [written, named]; rfl)
  limit x present := by
    have written := describes.limit.1 x present
    cases limited : s.matchLimit with
    | none => exact .inl (by rw [written, limited]; rfl)
    | some n =>
      have nonzero : n ≠ 0 := by
        rintro rfl
        exact valid limited
      exact .inr ⟨n, Nat.pos_of_ne_zero nonzero, fits n limited, by rw [written, limited]; rfl⟩
  showWiring x present := ⟨_, describes.showWiring.1 x present⟩

theorem Gives.present {α : Type} {present : Json → Prop} {written : α → Json} {default actual : α}
    (gives : Gives present written default actual) (other : actual ≠ default) :
    present (written actual) := by
  by_contra absent
  refine other (gives.2 fun x there => absent ?_)
  rwa [gives.1 x there] at there

theorem Faulty.eq_of_rank_eq (ascending : value.KeysAscend) (faulty : Faulty value e)
    (faulty' : Faulty value e') (same : e.rank = e'.rank) : e = e' := by
  cases faulty <;> cases faulty' <;> simp [DocumentError.rank] at same
  case unknownKey.unknownKey present unknown least _ _ present' unknown' least' =>
    exact congrArg _ (le_antisymm (least _ _ present' unknown') (least' _ _ present unknown))
  case parity.parity present _ _ present' _ =>
    exact congrArg _ (has_unique ascending present present')
  all_goals rfl

theorem FirstFault.unique (ascending : value.KeysAscend) (fault : FirstFault value e)
    (fault' : FirstFault value e') : e = e' :=
  fault.faulty.eq_of_rank_eq ascending fault'.faulty
    (le_antisymm (fault.first e' fault'.faulty) (fault'.first e fault.faulty))

variable [Json.Codec]

theorem ofJson_of_checked
    (found : fields.find? (fun field => field.1 ∉ knownKeys) = none) {s : Settings}
    (parity : parityOf (fields.lookup "parity_check") = .ok s.parity)
    (limit : limitOf (fields.lookup "match_limit") = .ok s.matchLimit)
    (showWiring : showWiringOf (fields.lookup "trace_pregraph") = .ok s.showWiring) :
    ofJson (.object fields) = (fun _ => s) <$> s.checkLimit := by
  simp only [ofJson, found, parity, limit, showWiring]
  rfl

variable [Json.LawfulCodec]

theorem ofJson_known_spec (ascending : (Json.object fields).KeysAscend)
    (found : fields.find? (fun field => field.1 ∉ knownKeys) = none)
    (known : ∀ key x, (Json.object fields).Has key x → key ∈ knownKeys) :
    (∃ s, ofJson (.object fields) = .ok s ∧ IsDocument (.object fields) ∧
      Describes (.object fields) s ∧ s.FitsWord ∧ s.IsValid) ∨
    ∃ e, ofJson (.object fields) = .error e ∧ FirstFault (.object fields) e := by
  have parities := parityOf_spec (fields.lookup "parity_check")
  have limits := limitOf_spec (fields.lookup "match_limit")
  have showings := showWiringOf_spec (fields.lookup "trace_pregraph")
  have has (key : String) (x : Json) : x ∈ fields.lookup key ↔ (Json.object fields).Has key x := by
    rw [has_eq_lookup ascending]
  simp only [has] at parities limits showings
  obtain ⟨p, parity, parityGiven⟩ | ⟨x, present, parity, wrong⟩ := parities
  · have afterParity (e : DocumentError) (faulty : Faulty (.object fields) e) : 3 ≤ e.rank :=
      faulty.three_le_rank known parityGiven.1
    obtain ⟨limit, limited, fits, limitGiven⟩ | ⟨limited, x, present, notNull, wrong⟩ := limits
    · obtain ⟨b, shown, showGiven⟩ | ⟨shown, x, present, wrong⟩ := showings
      · have describes : Describes (.object fields) ⟨p, limit, b⟩ :=
          ⟨parityGiven, limitGiven, showGiven⟩
        have read := ofJson_of_checked (s := ⟨p, limit, b⟩) found parity limited shown
        by_cases valid : IsValid ⟨p, limit, b⟩
        · rw [checkLimit_of_isValid valid] at read
          exact .inl ⟨_, read, isDocument_of_describes known describes fits valid, describes, fits,
            valid⟩
        · have zero : limit = some 0 := not_not.mp valid
          subst zero
          exact .inr ⟨.zeroLimit, read, .zeroLimit (limitGiven.present nofun),
            fun e faulty => faulty.four_le_rank known describes fits⟩
      · refine .inr ⟨.mistyped, ?_, .showWiring present wrong, afterParity⟩
        simp only [ofJson, found, parity, limited, shown]
        rfl
    · refine .inr ⟨.mistyped, ?_, .limit present notNull wrong, afterParity⟩
      simp only [ofJson, found, parity, limited]
      rfl
  · refine .inr ⟨.invalidParity x, ?_, .parity present wrong,
      fun e faulty => faulty.two_le_rank known⟩
    simp only [ofJson, found, parity]
    rfl

/-- A value whose keys ascend is read as the settings that it describes, or it is refused with its
first fault. -/
theorem ofJson_spec (ascending : value.KeysAscend) :
    (∃ s, ofJson value = .ok s ∧ IsDocument value ∧ Describes value s ∧ s.FitsWord ∧ s.IsValid) ∨
    ∃ e, ofJson value = .error e ∧ FirstFault value e := by
  cases value with
  | null | bool | number | text | array =>
    exact .inr ⟨.notAnObject, rfl, .notAnObject nofun, fun _ _ => Nat.zero_le _⟩
  | object fields =>
    obtain ⟨found, known⟩ | ⟨key, x, found, present, unknown, least⟩ := find_unknown_spec ascending
    · exact ofJson_known_spec ascending found known
    · exact .inr ⟨.unknownKey key, by simp only [ofJson, found], .unknownKey present unknown least,
        fun e' faulty => faulty.one_le_rank⟩

/-- Exactly the documents are read, and what is read of one is what it describes. -/
theorem exists_ofJson_iff (ascending : value.KeysAscend) :
    (∃ s, ofJson value = .ok s) ↔ IsDocument value := by
  constructor
  · rintro ⟨s, read⟩
    obtain ⟨-, -, document, -⟩ | ⟨e, refused, -⟩ := ofJson_spec ascending
    · exact document
    · rw [read] at refused
      cases refused
  · intro document
    obtain ⟨s, read, -⟩ | ⟨e, -, fault⟩ := ofJson_spec ascending
    · exact ⟨s, read⟩
    · exact absurd fault.faulty document.not_faulty

theorem describes_of_ofJson (ascending : value.KeysAscend) {s : Settings}
    (read : ofJson value = .ok s) : Describes value s ∧ s.FitsWord ∧ s.IsValid := by
  obtain ⟨s', read', -, described⟩ | ⟨e, refused, -⟩ := ofJson_spec ascending
  · rw [read] at read'
    cases read'
    exact described
  · rw [read] at refused
    cases refused

/-- What is refused is refused with its first fault. -/
theorem ofJson_eq_error_iff (ascending : value.KeysAscend) :
    ofJson value = .error e ↔ FirstFault value e := by
  obtain ⟨s, read, document, -⟩ | ⟨e', refused, fault'⟩ := ofJson_spec ascending
  · rw [read]
    exact ⟨nofun, fun fault => absurd fault.faulty document.not_faulty⟩
  · rw [refused]
    constructor
    · rintro ⟨⟩
      exact fault'
    · intro fault
      rw [fault.unique ascending fault']

end

end Settings

namespace Profile

open Settings

section
variable [Json.Codec] [Json.LawfulCodec]

variable {σ : Type} [ProfileStore σ] {name : ProfileName} {store : σ} {document : Bytes}
  {value : Json}

/-- Loading is decoding where a document is stored. -/
theorem load_of_read
    (stored : (ProfileStore.read name store).result = .ok (some document))
    (parsed : Json.Codec.parse document = .ok value) :
    (load name store).result = (ofJson value).mapError (.ofDocument name) := by
  cases document with
  | nil => exact absurd parsed (Json.LawfulCodec.parse_nil value)
  | cons b bytes =>
    have decoded : decode name (b :: bytes) = (ofJson value).mapError (.ofDocument name) := by
      simp only [decode, parsed]
      cases ofJson value <;> rfl
    unfold load
    have result : (loadStored name store).result = (decode name (b :: bytes)).map some := by
      simp only [loadStored, stored]
    rw [decoded] at result
    cases read : ofJson value <;> rw [read] at result <;> simp only [result] <;> rfl

/-- Valid settings are stored, and loading them again gives the same. -/
theorem Faithful.save_load {keeps : σ → Documents → Prop} (faithful : Faithful keeps)
    {table : Documents} (kept : keeps store table) {s : Settings} (fits : s.FitsWord)
    (valid : s.IsValid) (name : ProfileName) :
    (Profile.save name s store).result = .ok () ∧
      (Profile.load name (Profile.save name s store).store).result = .ok s := by
  obtain ⟨done, kept⟩ := faithful.write kept name (encode s)
  obtain ⟨found, -⟩ := faithful.read kept name
  rw [Function.update_self] at found
  rw [save_of_isValid valid done]
  refine ⟨rfl, ?_⟩
  obtain ⟨value, parsed, settings⟩ := exists_parse_encode fits valid
  rw [load_of_read found parsed, settings]
  rfl

/-- Whatever the codec and whatever value is stored under a name, loading succeeds exactly if it is a
document of settings. The loaded settings are those that it describes, and any store that answers from its
documents gives them back after saving. Any other value is refused with its first fault. -/
theorem load_iff_isDocument
    (stored : (ProfileStore.read name store).result = .ok (some document))
    (parsed : Json.Codec.parse document = .ok value) :
    ((∃ s, (load name store).result = .ok s) ↔ IsDocument value) ∧
    (∀ s, (load name store).result = .ok s → Describes value s ∧
      ∀ (σ' : Type) [ProfileStore σ'] (keeps : σ' → Documents → Prop) (table : Documents)
        (store' : σ') (other : ProfileName), Faithful keeps → keeps store' table →
        (save other s store').result = .ok () ∧
          (load other (save other s store').store).result = .ok s) ∧
    ∀ x, (load name store).result = .error x ↔
      ∃ e, x = .ofDocument name e ∧ FirstFault value e := by
  have ascending := Json.LawfulCodec.keysAscend_of_parse parsed
  rw [load_of_read stored parsed]
  have ok_iff (s : Settings) : (ofJson value).mapError (ProfileError.ofDocument name) = .ok s ↔
      ofJson value = .ok s := by
    cases ofJson value <;> simp [Except.mapError]
  have error_iff (x : ProfileError) :
      (ofJson value).mapError (ProfileError.ofDocument name) = .error x ↔
        ∃ e, x = .ofDocument name e ∧ ofJson value = .error e := by
    cases ofJson value <;> simp [Except.mapError, eq_comm]
  simp only [ok_iff, error_iff, ofJson_eq_error_iff ascending]
  refine ⟨exists_ofJson_iff ascending, ?_, fun x => trivial⟩
  intro s read
  obtain ⟨describes, fits, valid⟩ := describes_of_ofJson ascending read
  refine ⟨describes, ?_⟩
  intro σ' _ keeps table store' other faithful kept
  exact faithful.save_load kept fits valid other

end

/-- Of a limit of zero and a flag that is a number, the flag is reported: types come first. -/
theorem load_iff_isDocument_mistyped :
    let fields : List (String × Json) :=
      [("parity_check", .text "always"), ("match_limit", .nat 0), ("trace_pregraph", .nat 1)]
    let shelf := Shelf.empty.put .default (Text.Utf8.encode (Json.object fields).pretty)
    (load .default shelf).result = .error (.unreadable .default .mistyped) := by
  intro fields shelf
  have record : Json.IsRecord fields := by
    have plain : Text.IsPlain "parity_check" ∧ Text.IsPlain "always" ∧
        Text.IsPlain "match_limit" ∧ Text.IsPlain "trace_pregraph" := by decide
    obtain ⟨parityKey, always, limitKey, showWiringKey⟩ := plain
    exact List.forall_mem_cons.mpr ⟨⟨parityKey, .text always⟩,
      List.forall_mem_cons.mpr ⟨⟨limitKey, .nat (Nat.zero_le _)⟩,
        List.forall_mem_singleton.mpr ⟨showWiringKey, .nat (by decide)⟩⟩⟩
  have sorted : Json.byKey [] fields =
      [("match_limit", .nat 0), ("parity_check", .text "always"), ("trace_pregraph", .nat 1)] := by
    have first : "match_limit" < "parity_check" := by decide
    have last : ¬ "trace_pregraph" < "match_limit" ∧ ¬ "trace_pregraph" < "parity_check" := by decide
    simp [fields, Json.byKey, Ascending.insertEntry, first, last]
  have parsed := Json.parse_pretty record
  rw [sorted] at parsed
  have kept := Shelf.keeps_empty.put .default (Text.Utf8.encode (Json.object fields).pretty)
  obtain ⟨stored, -⟩ := Shelf.faithful.read kept .default
  rw [Function.update_self] at stored
  refine ((load_iff_isDocument stored parsed).2.2 _).mpr ⟨.mistyped, rfl, ?_, ?_⟩
  · refine .showWiring (x := .nat 1) (has_object_iff.mpr (by simp)) ?_
    intro b same
    cases same
  · intro e faulty
    refine faulty.three_le_rank (p := .always) ?_ ?_
    · intro key x present
      rw [has_object_iff] at present
      simp only [List.mem_cons, Prod.mk.injEq, List.not_mem_nil, or_false] at present
      rcases present with ⟨rfl, -⟩ | ⟨rfl, -⟩ | ⟨rfl, -⟩ <;> decide
    · simp [has_object_iff, ParityPolicy.name]

end Profile

end GraphSplice
