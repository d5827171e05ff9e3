import GraphSplice.Profile.Name
import GraphSplice.Settings.Document
import GraphSplice.Text.Quoted

/-!
What can go wrong with profiles.
-/

namespace GraphSplice

/-- Failures of the medium behind a store. -/
inductive StoreError where
  /-- The medium was declared gone. -/
  | unavailable
  /-- The file system refused. -/
  | fileSystem
  deriving DecidableEq, Repr

inductive ProfileError where
  | invalidName (text : String)
  /-- The user has no directory for settings. -/
  | noDirectory
  | store (e : StoreError)
  | unreadable (profile : ProfileName) (fault : Json.Fault)
  | notAnObject (profile : ProfileName)
  | unknownKey (profile : ProfileName) (key : String)
  | invalidParity (profile : ProfileName) (value : Json)
  | zeroLimit (profile : ProfileName)

namespace ProfileError

/-- The wording, where it is this library's: the file system and the reader of texts have words of
their own for what they refuse. -/
def message? : ProfileError → Option String
  | invalidName text =>
    some ("invalid profile name " ++ Text.quoted text ++
      ": use lowercase letters, digits, '-' or '_'")
  | noDirectory => some "no user config directory on this platform"
  | store .unavailable => some "config store: profile store unavailable"
  | store .fileSystem => none
  | unreadable _ _ => none
  | notAnObject profile => some ("profile " ++ profile.text ++ ": expected a JSON object")
  | unknownKey profile key =>
    some ("profile " ++ profile.text ++ ": unknown key " ++ Text.quoted key)
  | invalidParity profile value =>
    some ("profile " ++ profile.text ++
      ": parity_check must be \"always\" or \"when_armed\", got " ++ value.compact)
  | zeroLimit profile => some ("profile " ++ profile.text ++ ": match_limit must be at least 1")

/-- A refused document, told of the profile it is stored under. -/
def ofDocument (profile : ProfileName) : Settings.DocumentError → ProfileError
  | .notAnObject => notAnObject profile
  | .unknownKey key => unknownKey profile key
  | .invalidParity value => invalidParity profile value
  | .mistyped => unreadable profile .mistyped
  | .zeroLimit => zeroLimit profile

end ProfileError

/-- Reads and validates the name of a profile. -/
def ProfileName.parse (s : String) : Except ProfileError ProfileName :=
  match ofString? s with
  | none => .error (.invalidName s)
  | some n => .ok n

end GraphSplice
