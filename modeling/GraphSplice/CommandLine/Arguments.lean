import GraphSplice.Profile.Error

/-!
The arguments of the command line. Two options are known before and after the name of a command,
and a value after the name wins over one before it; all others belong to one command. An option
takes its value from the next argument or after an equals sign, and is given at most once in
each place.
-/

namespace GraphSplice.CommandLine

structure GrowOptions where
  steps : Nat
  seed : UInt64
  batch : Bool
  json : Bool
  deriving DecidableEq, Repr

def GrowOptions.default : GrowOptions := ⟨20, 0, false, false⟩

inductive Command where
  | grow (options : GrowOptions)
  | rules
  | config (save list : Bool)
  deriving DecidableEq, Repr

structure Invocation where
  configDir : Option String
  profile : ProfileName
  command : Command

/-- What the arguments ask for if not for a command to be run. -/
inductive Refusal where
  /-- The text of usage was asked for. -/
  | help
  /-- The version was asked for. -/
  | version
  /-- The arguments are wrong. -/
  | misuse
  deriving DecidableEq, Repr

/-! ## Words -/

inductive Flag where
  | batch
  | json
  | save
  | list
  deriving DecidableEq, Repr

inductive Setting where
  | configDir
  | profile
  | steps
  | seed
  deriving DecidableEq, Repr

def Flag.ofName? (name : String) : Option Flag :=
  [("batch", Flag.batch), ("json", .json), ("save", .save), ("list", .list)].lookup name

def Setting.ofName? (name : String) : Option Setting :=
  [("config-dir", Setting.configDir), ("profile", .profile), ("steps", .steps),
    ("seed", .seed)].lookup name

/-- An argument taken apart. -/
inductive Word where
  /-- `--name` or `--name=value` -/
  | long (name : String) (value : Option String)
  /-- `-letters` -/
  | short (letters : List Char)
  /-- `--` -/
  | separator
  | plain (text : String)
  deriving DecidableEq, Repr

def Word.ofString (s : String) : Word :=
  match s.toList with
  | ['-', '-'] => .separator
  | '-' :: '-' :: rest =>
    let name := rest.takeWhile (· ≠ '=')
    .long (String.ofList name)
      (if '=' ∈ rest then some (String.ofList (rest.drop (name.length + 1))) else none)
  | ['-'] => .plain s
  | '-' :: letters => .short letters
  | _ => .plain s

def Word.isPlain : Word → Bool
  | .plain _ => true
  | _ => false

/-! ## Places -/

/-- What was given in one place: before the name of the command, or after it. -/
structure Given where
  flags : List Flag
  settings : List (Setting × String)
  deriving DecidableEq, Repr

def Given.empty : Given := ⟨[], []⟩

def Given.addFlag (g : Given) (flag : Flag) : Except Refusal Given :=
  if flag ∈ g.flags then .error .misuse else .ok { g with flags := flag :: g.flags }

def Given.addSetting (g : Given) (setting : Setting) (value : String) : Except Refusal Given :=
  if (g.settings.lookup setting).isSome then .error .misuse
  else .ok { g with settings := (setting, value) :: g.settings }

/-- Which options a place knows. -/
structure Place where
  flags : List Flag
  settings : List Setting
  isTop : Bool

def Place.top : Place := ⟨[], [.configDir, .profile], true⟩

def Place.ofCommand? (name : String) : Option Place :=
  [("grow", (⟨[.batch, .json], [.configDir, .profile, .steps, .seed], false⟩ : Place)),
    ("rules", ⟨[], [.configDir, .profile], false⟩),
    ("config", ⟨[.save, .list], [.configDir, .profile], false⟩)].lookup name

/-- The letters after a single hyphen: help everywhere, and the version before the command. -/
def readShort (place : Place) : List Char → Refusal
  | 'h' :: _ => .help
  | 'V' :: _ => if place.isTop then .version else .misuse
  | _ => .misuse

/-- Reads an option with the argument after it, and tells whether that argument was its value. -/
def readLong (place : Place) (name : String) (value next : Option String) (g : Given) :
    Except Refusal (Given × Bool) :=
  match Flag.ofName? name, Setting.ofName? name with
  | some flag, _ =>
    if flag ∈ place.flags ∧ value = none then (g.addFlag flag).map (·, false)
    else .error .misuse
  | none, some setting =>
    if setting ∉ place.settings then .error .misuse
    else
      match value, next with
      | some value, _ => (g.addSetting setting value).map (·, false)
      | none, some next =>
        if (Word.ofString next).isPlain then (g.addSetting setting next).map (·, true)
        else .error .misuse
      | none, none => .error .misuse
  | none, none =>
    if name = "help" ∧ value = none then .error .help
    else if name = "version" ∧ value = none ∧ place.isTop then .error .version
    else .error .misuse

/-- Reads the arguments of a place up to its end, or up to the name of a command. -/
def readPlace (place : Place) : List String → Given → Except Refusal (Given × List String)
  | [], g => .ok (g, [])
  | argument :: rest, g =>
    match Word.ofString argument with
    | .plain _ => .ok (g, argument :: rest)
    | .separator => if rest = [] then .ok (g, []) else .error .misuse
    | .short letters => .error (readShort place letters)
    | .long name value => do
      let (g, took) ← readLong place name value rest.head? g
      readPlace place (rest.drop took.toNat) g
termination_by arguments => arguments.length
decreasing_by
  simp only [List.length_drop, List.length_cons]
  omega

/-! ## Values -/

/-- A number up to `2 ^ 64 - 1`, with or without a plus sign. -/
def readWord? (s : String) : Option Nat :=
  let digits := match s.toList with
    | '+' :: rest => rest
    | all => all
  if digits = [] ∨ ¬ digits.all ProfileName.isDigit then none
  else
    let n := digits.foldl (fun n c => n * 10 + (c.toNat - 48)) 0
    if n < twoTo 64 then some n else none

/-- The number given for a setting, or the one that it has otherwise. -/
def numberFor (g : Given) (setting : Setting) (otherwise : Nat) : Except Refusal Nat :=
  match g.settings.lookup setting with
  | none => .ok otherwise
  | some value =>
    match readWord? value with
    | none => .error .misuse
    | some n => .ok n

/-- The profile named in a place, if one is. -/
def profileIn (g : Given) : Except Refusal (Option ProfileName) :=
  match g.settings.lookup .profile with
  | none => .ok none
  | some value =>
    match ProfileName.ofString? value with
    | none => .error .misuse
    | some name => .ok (some name)

def commandOf (name : String) (g : Given) : Except Refusal Command :=
  if name = "grow" then do
    let steps ← numberFor g .steps GrowOptions.default.steps
    let seed ← numberFor g .seed GrowOptions.default.seed.toNat
    return .grow ⟨steps, seed.toUInt64, .batch ∈ g.flags, .json ∈ g.flags⟩
  else if name = "rules" then .ok .rules
  else if .save ∈ g.flags ∧ .list ∈ g.flags then .error .misuse
  else .ok (.config (.save ∈ g.flags) (.list ∈ g.flags))

/-- Reads all arguments. -/
def parse (arguments : List String) : Except Refusal Invocation := do
  let (top, rest) ← readPlace .top arguments .empty
  let outer ← profileIn top
  match rest with
  | [] => .error .misuse
  | name :: rest =>
    match Place.ofCommand? name with
    | none => .error (if name = "help" then .help else .misuse)
    | some place => do
      let (given, extra) ← readPlace place rest .empty
      if extra ≠ [] then .error .misuse
      else do
        let inner ← profileIn given
        let command ← commandOf name given
        let configDir :=
          (given.settings.lookup .configDir).orElse fun _ => top.settings.lookup .configDir
        return ⟨configDir, (inner.orElse fun _ => outer).getD .default, command⟩

end GraphSplice.CommandLine
