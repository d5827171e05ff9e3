import GraphSplice.Profile.Directory
import GraphSplice.Proofs.Profile.Store

/-!
A directory keeps a table of documents: the file of a profile is found under its name and under
no other, and the temporary file of a write is gone once the write is done.
-/

namespace GraphSplice.Directory

open Profile (Documents Faithful)

/-! ## File names -/

theorem profileOf?_fileName (name : ProfileName) : profileOf? (fileName name) = some name := by
  have reversed : (fileName name).toList.reverse =
      ".json".toList.reverse ++ name.text.toList.reverse := by
    rw [fileName, String.toList_append, List.reverse_append]
  have ending : (".json".toList.reverse).isPrefixOf (fileName name).toList.reverse = true := by
    rw [reversed, List.isPrefixOf_iff_prefix]
    exact List.prefix_append _ _
  simp only [profileOf?, ending, if_true]
  rw [reversed, List.drop_left, List.reverse_reverse, String.ofList_toList,
    ProfileName.ofString?_text]

/-- What a write leaves half done is no profile. -/
theorem profileOf?_temporaryName (name : ProfileName) :
    profileOf? (temporaryName name) = none := by
  have reversed : (temporaryName name).toList.reverse =
      ".json.tmp".toList.reverse ++ ("." ++ name.text).toList.reverse := by
    rw [temporaryName, String.toList_append, List.reverse_append]
  have ending :
      (".json".toList.reverse).isPrefixOf (temporaryName name).toList.reverse = false := by
    rw [reversed]
    rfl
  simp only [profileOf?, ending, Bool.false_eq_true, if_false]

theorem fileName_injective {a b : ProfileName} (same : fileName a = fileName b) : a = b := by
  have profiles := congrArg profileOf? same
  rw [profileOf?_fileName, profileOf?_fileName] at profiles
  exact Option.some.inj profiles

theorem fileName_ne_temporaryName (a b : ProfileName) : fileName a ≠ temporaryName b := by
  intro same
  have profiles := congrArg profileOf? same
  rw [profileOf?_fileName, profileOf?_temporaryName] at profiles
  cases profiles

/-! ## Entries -/

theorem mem_erase {file : String} {entry : String × Entry} {entries : List (String × Entry)} :
    entry ∈ erase file entries ↔ entry ∈ entries ∧ entry.1 ≠ file := by
  simp [erase]

theorem lookup_erase (file other : String) (entries : List (String × Entry)) :
    (erase file entries).lookup other = if other = file then none else entries.lookup other := by
  induction entries with
  | nil => simp [erase]
  | cons entry rest ih =>
    obtain ⟨key, content⟩ := entry
    by_cases removed : key = file
    · have skipped : erase file ((key, content) :: rest) = erase file rest := by
        simp [erase, removed]
      rw [skipped, ih, lookup_cons_eq, removed]
      split <;> rfl
    · have kept : erase file ((key, content) :: rest) = (key, content) :: erase file rest := by
        simp [erase, removed]
      rw [kept, lookup_cons_eq, lookup_cons_eq, ih]
      by_cases here : other = key
      · have elsewhere : other ≠ file := fun same => removed (here.symm.trans same)
        rw [if_pos here, if_neg elsewhere, if_pos here]
      · rw [if_neg here, if_neg here]

def remove (d : Directory) (file : String) : Directory := ⟨d.entries.map (erase file)⟩

theorem listing_remove (d : Directory) (file : String) :
    (d.remove file).listing = erase file d.listing := by
  obtain ⟨_ | entries⟩ := d <;> rfl

theorem listing_put {d : Directory} (present : d.entries.isSome = true) (file : String)
    (entry : Entry) : (d.put file entry).listing = erase file d.listing ++ [(file, entry)] := by
  obtain ⟨_ | entries⟩ := d
  · cases present
  · rfl

theorem entry?_remove (d : Directory) (file other : String) :
    entry? (d.remove file) other = if other = file then none else entry? d other := by
  unfold entry?
  rw [listing_remove, lookup_erase]

theorem entry?_put {d : Directory} (present : d.entries.isSome = true) (file other : String)
    (entry : Entry) :
    entry? (d.put file entry) other = if other = file then some entry else entry? d other := by
  unfold entry?
  rw [listing_put present, List.lookup_append, lookup_erase, lookup_cons_eq]
  split
  · rfl
  · exact Option.or_none

/-- The table of a directory that is there. -/
structure Keeps (d : Directory) (table : Documents) : Prop where
  present : d.entries.isSome = true
  profiles : ∀ entry ∈ d.listing, ∃ name, entry.1 = fileName name
  file : ∀ name, d.entry? (fileName name) = (table name).map .file

theorem keeps_empty : empty.Keeps fun _ => none := ⟨rfl, nofun, fun _ => rfl⟩

section
variable {d : Directory} {table : Documents}

theorem Keeps.entry?_temporaryName (kept : d.Keeps table) (name : ProfileName) :
    d.entry? (temporaryName name) = none := by
  unfold entry?
  rw [List.lookup_eq_none_iff]
  intro entry mem
  obtain ⟨other, named⟩ := kept.profiles entry mem
  rw [named, bne_iff_ne]
  exact (fileName_ne_temporaryName other name).symm

/-- The directory after a write, which takes the detour over the temporary file. -/
def written (d : Directory) (name : ProfileName) (content : Bytes) : Directory :=
  ((d.put (temporaryName name) (.file content)).remove (temporaryName name)).put (fileName name)
    (.file content)

theorem Keeps.write_eq (kept : d.Keeps table) (name : ProfileName) (content : Bytes) :
    d.write name content = ⟨.ok (), d.written name content⟩ := by
  have free := kept.entry?_temporaryName name
  obtain ⟨entries, present⟩ := Option.isSome_iff_exists.mp kept.present
  have temporary : d.writeFile (temporaryName name) content =
      .ok (d.put (temporaryName name) (.file content)) := by
    simp [writeFile, present, free]
  have source : entry? (d.put (temporaryName name) (.file content)) (temporaryName name) =
      some (.file content) := by
    rw [entry?_put kept.present, if_pos rfl]
  have target : entry? (d.put (temporaryName name) (.file content)) (fileName name) =
      (table name).map .file := by
    rw [entry?_put kept.present, if_neg (fileName_ne_temporaryName name name), kept.file]
  have renamed : (d.put (temporaryName name) (.file content)).rename (temporaryName name)
      (fileName name) = .ok (d.written name content) := by
    rw [rename, source, target]
    cases table name <;> rfl
  simp only [write, temporary, renamed]

theorem Keeps.written (kept : d.Keeps table) (name : ProfileName) (content : Bytes) :
    (d.written name content).Keeps (Function.update table name (some content)) := by
  obtain ⟨entries, present⟩ := Option.isSome_iff_exists.mp kept.present
  have stillThere : ((d.put (temporaryName name) (.file content)).remove
      (temporaryName name)).entries.isSome = true := by
    simp [put, remove, present]
  refine ⟨by simp [Directory.written, put, remove, present], ?_, ?_⟩
  · intro entry mem
    rw [Directory.written, listing_put stillThere, listing_remove, listing_put kept.present] at mem
    simp only [List.mem_append, mem_erase, List.mem_singleton] at mem
    rcases mem with ⟨⟨⟨old, -⟩ | temporary, remains⟩, -⟩ | new
    · exact kept.profiles entry old
    · exact absurd (congrArg Prod.fst temporary) remains
    · exact ⟨name, congrArg Prod.fst new⟩
  · intro other
    rw [Directory.written, entry?_put stillThere, entry?_remove, entry?_put kept.present,
      if_neg (fileName_ne_temporaryName other name), if_neg (fileName_ne_temporaryName other name),
      Function.update_apply, kept.file]
    by_cases same : other = name
    · rw [if_pos (congrArg fileName same), if_pos same, Option.map_some]
    · rw [if_neg (mt fileName_injective same), if_neg same]

end

theorem faithful : Faithful Keeps where
  read {d table} kept name := by
    refine ⟨?_, kept⟩
    change d.read name = .ok (table name)
    rw [read, kept.file]
    cases table name <;> rfl
  write {d table} kept name content := by
    change (d.write name content).result = .ok () ∧ Keeps (d.write name content).state _
    rw [kept.write_eq name content]
    exact ⟨rfl, kept.written name content⟩
  names {d table} kept := by
    refine ⟨d.names, rfl, Ascending.ofList_pairwise _, ?_⟩
    intro name
    have stored : (table name).isSome = true ↔ fileName name ∈ d.listing.map (·.1) := by
      have found := congrArg Option.isSome (kept.file name)
      rw [Option.isSome_map] at found
      rw [← isSome_lookup_iff, ← found]
      rfl
    rw [names, Ascending.mem_ofList, stored]
    simp only [List.mem_filterMap, List.mem_map]
    constructor
    · rintro ⟨entry, mem, read⟩
      obtain ⟨other, named⟩ := kept.profiles entry mem
      rw [named, profileOf?_fileName] at read
      cases read
      exact ⟨entry, mem, named⟩
    · rintro ⟨entry, mem, named⟩
      refine ⟨entry, mem, ?_⟩
      rw [named, profileOf?_fileName]

end GraphSplice.Directory
