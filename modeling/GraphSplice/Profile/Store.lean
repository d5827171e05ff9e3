import GraphSplice.Profile.Error

/-!
Stores of documents by profile name. A store is a state with three operations; reading may change
the state too, since a store may count what is asked of it.
-/

namespace GraphSplice

structure StoreAnswer (σ α : Type) where
  result : Except StoreError α
  state : σ

class ProfileStore (σ : Type) where
  /-- The document under a name, if there is one. -/
  read : ProfileName → σ → StoreAnswer σ (Option Bytes)
  /-- Replaces the document under a name. -/
  write : ProfileName → Bytes → σ → StoreAnswer σ Unit
  /-- The names of the stored documents, ascending. -/
  names : σ → Except StoreError (List ProfileName)

/-! ## Documents in memory -/

/-- Documents by ascending name, and counts of what was asked, failures included. -/
structure Shelf where
  documents : List (ProfileName × Bytes)
  reads : Nat
  writes : Nat
  unavailable : Bool

namespace Shelf

def empty : Shelf := ⟨[], 0, 0, false⟩

/-- Puts a document there, valid or not, whether the shelf is available or not. -/
def put (s : Shelf) (name : ProfileName) (document : Bytes) : Shelf :=
  { s with documents := Ascending.insertEntry name document s.documents }

def setUnavailable (s : Shelf) (unavailable : Bool) : Shelf := { s with unavailable := unavailable }

def document? (s : Shelf) (name : ProfileName) : Option Bytes := s.documents.lookup name

instance : ProfileStore Shelf where
  read name s :=
    let s := { s with reads := s.reads + 1 }
    if s.unavailable then ⟨.error .unavailable, s⟩ else ⟨.ok (s.document? name), s⟩
  write name document s :=
    let s := { s with writes := s.writes + 1 }
    if s.unavailable then ⟨.error .unavailable, s⟩ else ⟨.ok (), s.put name document⟩
  names s := if s.unavailable then .error .unavailable else .ok (s.documents.map (·.1))

end Shelf

end GraphSplice
