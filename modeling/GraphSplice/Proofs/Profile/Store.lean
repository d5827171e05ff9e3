import GraphSplice.Profile.Store
import GraphSplice.Proofs.Ascending
import Mathlib.Data.List.Lex
import Mathlib.Logic.Function.Basic

/-!
What it means for a store to keep a table of documents, and that the shelf does. All that is asked
of a store through its three operations is then a matter of the table alone.
-/

namespace GraphSplice

namespace ProfileName

theorem lt_iff {a b : ProfileName} : a < b ↔ Text.codes a.text < Text.codes b.text :=
  Ascending.precedes_iff

theorem eq_of_codes {a b : ProfileName} (same : Text.codes a.text = Text.codes b.text) : a = b := by
  have letters : a.text.toList = b.text.toList :=
    List.map_injective_iff.mpr (fun _ _ => Char.toNat_inj.mp) same
  cases a
  cases b
  cases String.toList_inj.mp letters
  rfl

instance : IsStrictTotalOrder ProfileName (· < ·) where
  trichotomous a b below above := by
    rw [lt_iff] at below above
    exact eq_of_codes (le_antisymm (not_lt.mp above) (not_lt.mp below))
  irrefl a := by simp [lt_iff]
  trans a b c := by
    simp only [lt_iff]
    exact lt_trans

end ProfileName

namespace Profile

/-- Documents by profile name. -/
abbrev Documents := ProfileName → Option Bytes

/-- A store answers from the table that it keeps: reading tells the document under a name, writing
replaces it and leaves all others, and the names are those with a document, ascending. -/
structure Faithful {σ : Type} [ProfileStore σ] (keeps : σ → Documents → Prop) : Prop where
  read : ∀ {store table}, keeps store table → ∀ name,
    (ProfileStore.read name store).result = .ok (table name) ∧
      keeps (ProfileStore.read name store).state table
  write : ∀ {store table}, keeps store table → ∀ name document,
    (ProfileStore.write name document store).result = .ok () ∧
      keeps (ProfileStore.write name document store).state
        (Function.update table name (some document))
  names : ∀ {store table}, keeps store table → ∃ names, ProfileStore.names store = .ok names ∧
    names.Pairwise (· < ·) ∧ ∀ name, name ∈ names ↔ (table name).isSome = true

end Profile

namespace Shelf

open Profile (Documents Faithful)

/-- The table of a shelf that is available. -/
structure Keeps (s : Shelf) (table : Documents) : Prop where
  available : s.unavailable = false
  ascending : (s.documents.map (·.1)).Pairwise (· < ·)
  document : ∀ name, s.document? name = table name

theorem keeps_empty : empty.Keeps fun _ => none := ⟨rfl, .nil, fun _ => rfl⟩

theorem Keeps.put {s : Shelf} {table : Documents} (kept : s.Keeps table) (name : ProfileName)
    (document : Bytes) : (s.put name document).Keeps (Function.update table name document) where
  available := kept.available
  ascending := by
    change ((Ascending.insertEntry name document s.documents).map (·.1)).Pairwise (· < ·)
    rw [Ascending.keys_insertEntry]
    exact Ascending.insert_pairwise kept.ascending
  document other := by
    change (Ascending.insertEntry name document s.documents).lookup other = _
    rw [Ascending.lookup_insertEntry, Function.update_apply]
    exact ite_congr rfl (fun _ => rfl) fun _ => kept.document other

theorem faithful : Faithful Keeps where
  read {s table} kept name := by
    have answer : ProfileStore.read name s =
        ⟨.ok (s.document? name), { s with reads := s.reads + 1 }⟩ := by
      simp [ProfileStore.read, kept.available, document?]
    rw [answer, kept.document name]
    exact ⟨rfl, kept.available, kept.ascending, kept.document⟩
  write {s table} kept name document := by
    have answer : ProfileStore.write name document s =
        ⟨.ok (), { s with writes := s.writes + 1 }.put name document⟩ := by
      simp [ProfileStore.write, kept.available]
    have counted : Keeps { s with writes := s.writes + 1 } table :=
      ⟨kept.available, kept.ascending, kept.document⟩
    rw [answer]
    exact ⟨rfl, counted.put name document⟩
  names {s table} kept := by
    have answer : ProfileStore.names s = .ok (s.documents.map (·.1)) := by
      simp [ProfileStore.names, kept.available]
    refine ⟨_, answer, kept.ascending, ?_⟩
    intro name
    rw [← kept.document name]
    exact isSome_lookup_iff.symm

end Shelf

end GraphSplice
