import GraphSplice.Proofs.Json.Value
import GraphSplice.Proofs.Profile.Directory
import GraphSplice.Proofs.Settings
import Mathlib.Data.List.Sort

/-!
Settings saved and loaded through any sequence of calls. A reply depends on the calls before it
alone: loading gives what was last saved under the name. So all faithful stores reply alike, and
nothing that was saved is lost or altered.
-/

namespace GraphSplice.Profile

inductive Call where
  | save (name : ProfileName) (s : Settings)
  | load (name : ProfileName)
  | loadStored (name : ProfileName)
  | names

inductive Reply where
  | saved (result : Except ProfileError Unit)
  | loaded (result : Except ProfileError Settings)
  | stored (result : Except ProfileError (Option Settings))
  | listed (result : Except ProfileError (List ProfileName))

section
variable {σ : Type} [ProfileStore σ] [Json.Codec]

def Call.perform (store : σ) : Call → Reply × σ
  | save name s =>
    let answer := Profile.save name s store
    (.saved answer.result, answer.store)
  | load name =>
    let answer := Profile.load name store
    (.loaded answer.result, answer.store)
  | loadStored name =>
    let answer := Profile.loadStored name store
    (.stored answer.result, answer.store)
  | names => (.listed (Profile.names store), store)

/-- The replies to calls made one after the other. -/
def replies (store : σ) : List Call → List Reply
  | [] => []
  | call :: calls => (call.perform store).1 :: replies (call.perform store).2 calls

end

/-! ## Replies due -/

/-- The settings that a call saves under a name. -/
def Call.saves? (name : ProfileName) : Call → Option Settings
  | save other s => if other = name ∧ s.IsValid then some s else none
  | _ => none

/-- The settings that were last saved under a name. -/
def lastSaved (name : ProfileName) (calls : List Call) : Option Settings :=
  calls.reverse.findSome? (Call.saves? name)

/-- The reply to a call, whatever the store, after the calls before it. -/
def Due (before : List Call) : Call → Reply → Prop
  | .save name s, reply => reply = .saved (if s.IsValid then .ok () else .error (.zeroLimit name))
  | .load name, reply => reply = .loaded (.ok ((lastSaved name before).getD .default))
  | .loadStored name, reply => reply = .stored (.ok (lastSaved name before))
  | .names, reply => ∃ names, reply = .listed (.ok names) ∧ names.Pairwise (· < ·) ∧
      ∀ name, name ∈ names ↔ ∃ s, Call.save name s ∈ before ∧ s.IsValid

/-- Every call got the reply that was due after the calls before it. -/
inductive Answered : List Call → List Call → List Reply → Prop where
  | nil {before : List Call} : Answered before [] []
  | cons {before calls : List Call} {call : Call} {reply : Reply} {replies : List Reply}
      (due : Due before call reply) (others : Answered (before ++ [call]) calls replies) :
      Answered before (call :: calls) (reply :: replies)

theorem Due.unique {before : List Call} {call : Call} {reply reply' : Reply}
    (due : Due before call reply) (due' : Due before call reply') : reply = reply' := by
  cases call with
  | save name s => exact due.trans due'.symm
  | load name => exact due.trans due'.symm
  | loadStored name => exact due.trans due'.symm
  | names =>
    obtain ⟨names, rfl, ascending, members⟩ := due
    obtain ⟨names', rfl, ascending', members'⟩ := due'
    have same : names = names' :=
      ascending.eq_of_mem_iff ascending' fun name => (members name).trans (members' name).symm
    rw [same]

theorem Answered.unique {before calls : List Call} {given given' : List Reply}
    (answered : Answered before calls given) (answered' : Answered before calls given') :
    given = given' := by
  induction answered generalizing given' with
  | nil =>
    cases answered'
    rfl
  | cons due others ih =>
    cases answered' with
    | cons due' others' => rw [due.unique due', ih others']

/-! ## What was saved -/

/-- The limits of saved settings fit their words. -/
def Call.FitsWord : Call → Prop
  | save _ s => s.FitsWord
  | _ => True

@[simp]
theorem lastSaved_concat (name : ProfileName) (before : List Call) (call : Call) :
    lastSaved name (before ++ [call]) = (call.saves? name).or (lastSaved name before) := by
  simp only [lastSaved, List.reverse_append, List.reverse_singleton, List.singleton_append,
    List.findSome?_cons]
  cases call.saves? name <;> rfl

theorem Call.saves?_eq_some_iff {name : ProfileName} {call : Call} {s : Settings} :
    call.saves? name = some s ↔ call = .save name s ∧ s.IsValid := by
  cases call with
  | save other t =>
    simp only [saves?, Option.ite_none_right_eq_some, Option.some.injEq, save.injEq]
    constructor
    · rintro ⟨⟨named, valid⟩, rfl⟩
      exact ⟨⟨named, rfl⟩, valid⟩
    · rintro ⟨⟨named, rfl⟩, valid⟩
      exact ⟨⟨named, valid⟩, rfl⟩
  | load | loadStored | names => simp [saves?]

theorem saved_of_lastSaved {name : ProfileName} {before : List Call} {s : Settings}
    (saved : lastSaved name before = some s) : Call.save name s ∈ before ∧ s.IsValid := by
  obtain ⟨call, mem, saves⟩ := List.exists_of_findSome?_eq_some saved
  obtain ⟨rfl, valid⟩ := Call.saves?_eq_some_iff.mp saves
  exact ⟨List.mem_reverse.mp mem, valid⟩

theorem isSome_lastSaved_iff {name : ProfileName} {before : List Call} :
    (lastSaved name before).isSome = true ↔ ∃ s, Call.save name s ∈ before ∧ s.IsValid := by
  constructor
  · intro found
    obtain ⟨s, saved⟩ := Option.isSome_iff_exists.mp found
    exact ⟨s, saved_of_lastSaved saved⟩
  · rintro ⟨s, mem, valid⟩
    rw [lastSaved, List.findSome?_isSome_iff]
    refine ⟨.save name s, List.mem_reverse.mpr mem, ?_⟩
    rw [Call.saves?_eq_some_iff.mpr ⟨rfl, valid⟩, Option.isSome_some]

section
variable [Json.Codec]

/-- The documents of what was saved. -/
def documents (before : List Call) : Documents := fun name => (lastSaved name before).map encode

theorem documents_of_load (before : List Call) (call : Call)
    (saves : ∀ name, call.saves? name = none) :
    documents (before ++ [call]) = documents before := by
  funext name
  rw [documents, lastSaved_concat, saves name, Option.none_or, documents]

theorem documents_of_save (before : List Call) (name : ProfileName) {s : Settings}
    (valid : s.IsValid) :
    documents (before ++ [.save name s]) =
      Function.update (documents before) name (some (encode s)) := by
  funext other
  rw [documents, lastSaved_concat, Function.update_apply]
  by_cases same : other = name
  · have saves : (Call.save name s).saves? other = some s :=
      Call.saves?_eq_some_iff.mpr ⟨by rw [same], valid⟩
    rw [saves, if_pos same, Option.some_or, Option.map_some]
  · have saves : (Call.save name s).saves? other = none :=
      if_neg fun both => same both.1.symm
    rw [saves, if_neg same, Option.none_or, documents]

end

section
variable [Json.Codec] {σ : Type} [ProfileStore σ] {keeps : σ → Documents → Prop} {store : σ}
  {before : List Call}

theorem save_of_not_isValid (name : ProfileName) {s : Settings} (invalid : ¬ s.IsValid)
    (store : σ) : save name s store = ⟨.error (.zeroLimit name), store, []⟩ := by
  have refused : s.checkLimit = .error .zeroLimit := if_pos (not_not.mp invalid)
  simp only [save, validate, refused, ProfileError.ofDocument]

theorem save_of_isValid {name : ProfileName} {s : Settings} (valid : s.IsValid)
    (done : (ProfileStore.write name (encode s) store).result = .ok ()) :
    save name s store = ⟨.ok (), (ProfileStore.write name (encode s) store).state,
      [.profileSaved name.text (encode s).length]⟩ := by
  simp only [save, validate_of_isValid name valid, done]

theorem Faithful.save (faithful : Faithful keeps) (kept : keeps store (documents before))
    (name : ProfileName) (s : Settings) :
    Due before (.save name s) ((Call.save name s).perform store).1 ∧
      keeps ((Call.save name s).perform store).2 (documents (before ++ [.save name s])) := by
  by_cases valid : s.IsValid
  · obtain ⟨done, kept⟩ := faithful.write kept name (encode s)
    simp only [Call.perform, save_of_isValid valid done, Due, if_pos valid,
      documents_of_save before name valid]
    exact ⟨trivial, kept⟩
  · have saves : ∀ other, (Call.save name s).saves? other = none :=
      fun other => if_neg fun both => valid both.2
    simp only [Call.perform, save_of_not_isValid name valid store, Due, if_neg valid,
      documents_of_load before (.save name s) saves]
    exact ⟨trivial, kept⟩

theorem Faithful.listed (faithful : Faithful keeps) (kept : keeps store (documents before)) :
    Due before .names (.listed (Profile.names store)) := by
  obtain ⟨names, listed, ascending, members⟩ := faithful.names kept
  refine ⟨names, ?_, ascending, ?_⟩
  · simp only [Profile.names, listed]
  · intro name
    rw [members name, documents, Option.isSome_map, isSome_lastSaved_iff]

variable [Json.LawfulCodec]

theorem Faithful.loadStored (faithful : Faithful keeps) (kept : keeps store (documents before))
    (fits : ∀ call ∈ before, call.FitsWord) (name : ProfileName) :
    (Profile.loadStored name store).result = .ok (lastSaved name before) ∧
      keeps (Profile.loadStored name store).store (documents before) := by
  obtain ⟨found, kept⟩ := faithful.read kept name
  refine ⟨?_, kept⟩
  simp only [Profile.loadStored, found, documents]
  cases saved : lastSaved name before with
  | none => rfl
  | some s =>
    obtain ⟨mem, valid⟩ := saved_of_lastSaved saved
    have decoded := decode_encode name (fits _ mem) valid
    -- An empty document would pass for no document.
    cases encoded : encode s with
    | nil => exact absurd encoded (encode_ne_nil (fits _ mem) valid)
    | cons b bytes =>
      rw [encoded] at decoded
      simp only [Option.map_some, encoded, decoded]
      rfl

theorem Faithful.load (faithful : Faithful keeps) (kept : keeps store (documents before))
    (fits : ∀ call ∈ before, call.FitsWord) (name : ProfileName) :
    (Profile.load name store).result = .ok ((lastSaved name before).getD .default) ∧
      keeps (Profile.load name store).store (documents before) := by
  obtain ⟨found, kept⟩ := faithful.loadStored kept fits name
  unfold Profile.load
  cases saved : lastSaved name before with
  | none =>
    rw [saved] at found
    simp only [found]
    exact ⟨rfl, kept⟩
  | some s =>
    rw [saved] at found
    simp only [found]
    exact ⟨rfl, kept⟩

/-- A faithful store gives the reply that is due, and keeps what was saved. -/
theorem Faithful.perform (faithful : Faithful keeps) (kept : keeps store (documents before))
    (fits : ∀ call ∈ before, call.FitsWord) (call : Call) :
    Due before call (call.perform store).1 ∧
      keeps (call.perform store).2 (documents (before ++ [call])) := by
  cases call with
  | save name s => exact faithful.save kept name s
  | load name =>
    obtain ⟨loaded, kept⟩ := faithful.load kept fits name
    rw [documents_of_load before (.load name) fun _ => rfl]
    exact ⟨congrArg Reply.loaded loaded, kept⟩
  | loadStored name =>
    obtain ⟨loaded, kept⟩ := faithful.loadStored kept fits name
    rw [documents_of_load before (.loadStored name) fun _ => rfl]
    exact ⟨congrArg Reply.stored loaded, kept⟩
  | names =>
    rw [documents_of_load before .names fun _ => rfl]
    exact ⟨faithful.listed kept, kept⟩

theorem Faithful.answered (faithful : Faithful keeps) (kept : keeps store (documents before))
    (calls : List Call) (fits : ∀ call ∈ before ++ calls, call.FitsWord) :
    Answered before calls (replies store calls) := by
  -- By induction on the calls that are left: the store keeps the documents of those made.
  induction calls generalizing before store with
  | nil => exact .nil
  | cons call calls ih =>
    have fitsBefore : ∀ call ∈ before, call.FitsWord :=
      fun call mem => fits call (List.mem_append_left _ mem)
    obtain ⟨due, kept⟩ := faithful.perform kept fitsBefore call
    refine .cons due (ih kept ?_)
    rw [List.append_assoc]
    exact fits

end

/-- Whatever the codec, through a fresh directory and an empty shelf alike, loading gives exactly what
was last saved under a name, and the names are those saved, ascending. A refused call leaves every
store as it was, and no temporary file passes for a profile. -/
theorem replies_lossless [Json.Codec] [Json.LawfulCodec] (calls : List Call) (fits : ∀ call ∈ calls, call.FitsWord) :
    replies Directory.empty calls = replies Shelf.empty calls ∧
      Answered [] calls (replies Directory.empty calls) ∧
      (∀ (σ : Type) [ProfileStore σ] (store : σ) (name : ProfileName) (s : Settings),
        s.matchLimit = some 0 → ((Call.save name s).perform store).2 = store) ∧
      ∀ name, Directory.profileOf? (Directory.temporaryName name) = none := by
  have ofDirectory : Answered [] calls (replies Directory.empty calls) :=
    Directory.faithful.answered Directory.keeps_empty calls fits
  have ofShelf : Answered [] calls (replies Shelf.empty calls) :=
    Shelf.faithful.answered Shelf.keeps_empty calls fits
  refine ⟨ofDirectory.unique ofShelf, ofDirectory, ?_, Directory.profileOf?_temporaryName⟩
  intro σ _ store name s zero
  simp only [Call.perform, save_of_not_isValid name (not_not.mpr zero) store]

/-- The greatest limit comes back after a save under another name and a refused one. -/
theorem replies_lossless_greatest :
    let greatest : Settings := ⟨.whenArmed, some Settings.limitBound, true⟩
    let other : ProfileName := ⟨"dense_2", by decide⟩
    replies Directory.empty [.save .default greatest, .save other .default,
        .save .default ⟨.always, some 0, false⟩, .load .default] =
      [.saved (.ok ()), .saved (.ok ()), .saved (.error (.zeroLimit .default)),
        .loaded (.ok greatest)] := by
  intro greatest other
  have fits : ∀ call ∈ [Call.save .default greatest, .save other .default,
      .save .default ⟨.always, some 0, false⟩, .load .default], call.FitsWord := by
    simp [Call.FitsWord, Settings.FitsWord, greatest, Settings.default]
  obtain ⟨-, answered, -⟩ := replies_lossless _ fits
  have due : Answered [] [Call.save .default greatest, .save other .default,
      .save .default ⟨.always, some 0, false⟩, .load .default]
      [.saved (.ok ()), .saved (.ok ()), .saved (.error (.zeroLimit .default)),
        .loaded (.ok greatest)] :=
    .cons rfl (.cons rfl (.cons rfl (.cons rfl .nil)))
  exact answered.unique due

end GraphSplice.Profile
