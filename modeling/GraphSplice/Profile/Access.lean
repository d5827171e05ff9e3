import GraphSplice.Event
import GraphSplice.Profile.Store

/-!
Access to settings under profile names. A missing or empty document stands for the default
settings. Documents are checked key by key, so that a fault names its profile and key; settings
are validated before they are written.
-/

namespace GraphSplice.Profile

variable {σ α : Type} [ProfileStore σ]

/-- What a call answers: a result, the store after it and the events on the way. -/
structure Answer (σ α : Type) where
  result : Except ProfileError α
  store : σ
  events : List Event

def validate (name : ProfileName) (s : Settings) : Except ProfileError Unit :=
  match s.checkLimit with
  | .error e => .error (.ofDocument name e)
  | .ok () => .ok ()

/-- Reads a document that is not empty. -/
def decode [Json.Codec] (name : ProfileName) (document : Bytes) : Except ProfileError Settings :=
  match Json.Codec.parse document with
  | .error fault => .error (.unreadable name fault)
  | .ok json =>
    match Settings.ofJson json with
    | .error e => .error (.ofDocument name e)
    | .ok s => .ok s

def encode [Json.Codec] (s : Settings) : Bytes := Json.Codec.print s.toJson

/-- The stored settings, if there are any. -/
def loadStored [Json.Codec] (name : ProfileName) (store : σ) : Answer σ (Option Settings) :=
  let answer := ProfileStore.read name store
  let result := match answer.result with
    | .error e => .error (.store e)
    | .ok none => .ok none
    | .ok (some []) => .ok none
    | .ok (some document) => (decode name document).map some
  ⟨result, answer.state, []⟩

/-- The stored settings, or the default ones. -/
def load [Json.Codec] (name : ProfileName) (store : σ) : Answer σ Settings :=
  let answer := loadStored name store
  match answer.result with
  | .error e => ⟨.error e, answer.store, []⟩
  | .ok none => ⟨.ok .default, answer.store, [.defaultsUsed name.text]⟩
  | .ok (some s) => ⟨.ok s, answer.store, []⟩

/-- Stores valid settings; others change nothing. -/
def save [Json.Codec] (name : ProfileName) (s : Settings) (store : σ) : Answer σ Unit :=
  match validate name s with
  | .error e => ⟨.error e, store, []⟩
  | .ok () =>
    let document := encode s
    let answer := ProfileStore.write name document store
    match answer.result with
    | .error e => ⟨.error (.store e), answer.state, []⟩
    | .ok () => ⟨.ok (), answer.state, [.profileSaved name.text document.length]⟩

def names (store : σ) : Except ProfileError (List ProfileName) :=
  match ProfileStore.names store with
  | .error e => .error (.store e)
  | .ok names => .ok names

end GraphSplice.Profile
