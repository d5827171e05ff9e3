import GraphSplice.CommandLine.Arguments
import GraphSplice.Dungeon.Growth
import GraphSplice.Profile.Access
import GraphSplice.Profile.Directory
import GraphSplice.Random.ChaCha

/-!
Running a command on a directory of profiles. The profile is loaded first, whatever the command;
then a level is grown, the rules are listed, or the profile is shown.
-/

namespace GraphSplice.CommandLine

/-- What the program leaves: an exit code, the text printed, the text of the error if it failed,
and the directory. -/
structure Outcome where
  code : Nat
  output : String
  error : Option String
  directory : Directory

inductive Failure where
  | profile (e : ProfileError)
  | apply (e : ApplyError)
  | draft (e : DraftError)

/-- The cause in this library's words; none where it lies deeper, in words of the system. -/
def Failure.cause? : Failure → Option String
  | profile e => e.message?
  | apply e => some e.message
  | draft e => some e.message

/-- The text of an error: what was being done, and the cause. -/
def errorText (doing : String) (f : Failure) : String :=
  match f.cause? with
  | none => "Error: " ++ doing
  | some cause => "Error: " ++ doing ++ "\n\nCaused by:\n    " ++ cause

def unlines (lines : List String) : String := String.join (lines.map (· ++ "\n"))

/-! ## Growing -/

structure Level where
  graph : Host dungeon
  stats : DungeonStats
  source : ChaCha

/-- Grows a level for a number of rounds; rounds in which no rule applies leave it as it is. A
failed round is told by its number. -/
def growLevel (g : Grammar dungeon) (rules : List RuleId) (batch : Bool) (total : Nat) :
    Nat → Level → Except (Nat × ApplyError) Level
  | 0, level => .ok level
  | left + 1, level =>
    let growth :=
      if batch then Dungeon.growBatch g level.graph level.stats level.source
      else Dungeon.growStep g rules level.graph level.stats level.source
    match growth.result with
    | .error e => .error (total - (left + 1), e)
    | .ok grown =>
      growLevel g rules batch total left
        ⟨grown.getD level.graph, growth.stats, growth.source⟩

/-- The rooms by index. -/
def roomsInOrder (level : Host dungeon) : List (Vertex Room) :=
  level.vertices.toList.mergeSort fun a b => a.index.toNat ≤ b.index.toNat

def inOrder (a b : Nat × Nat) : Bool := a.1 < b.1 || (a.1 == b.1 && a.2 ≤ b.2)

/-- The doorways as pairs of indices, the lesser first, in ascending order. -/
def doorwaysInOrder (level : Host dungeon) : List (Nat × Nat) :=
  let pairs := level.edges.toList.filterMap fun e => do
    let a ← level.vertex? e.ends.first
    let b ← level.vertex? e.ends.second
    return (min a.index.toNat b.index.toNat, max a.index.toNat b.index.toNat)
  pairs.mergeSort inOrder

def roomJson (r : Vertex Room) : Json :=
  .object [("index", .nat r.index.toNat), ("kind", .text r.payload.kind.name),
    ("size", .nat r.payload.size)]

def levelJson (level : Level) : Json :=
  .object [("rooms", .array ((roomsInOrder level.graph).map roomJson)),
    ("doorways", .array ((doorwaysInOrder level.graph).map fun (a, b) =>
      .array [.nat a, .nat b])),
    ("rooms_created", .nat level.stats.roomsCreated),
    ("doorways_created", .nat level.stats.doorwaysCreated),
    ("doorways_removed", .nat level.stats.doorwaysRemoved)]

def levelSummary (level : Level) : List String :=
  let doorways := doorwaysInOrder level.graph
  ["rooms: " ++ toString level.graph.order ++ "  doorways: " ++ toString doorways.length,
    "created " ++ toString level.stats.roomsCreated ++ " rooms and " ++
      toString level.stats.doorwaysCreated ++ " doorways, removed " ++
      toString level.stats.doorwaysRemoved ++ " doorways"] ++
    doorways.map fun (a, b) => "  " ++ toString a ++ " -- " ++ toString b

/-! ## Listing the rules -/

def padded (width : Nat) (s : String) : String :=
  s ++ String.ofList (List.replicate (width - s.length) ' ')

def ruleLine (r : Rule dungeon) : String :=
  padded 8 (ruleLabel r.id) ++ " " ++ padded 14 (r.name.getD "-") ++ " symmetric=" ++
    toString r.isSymmetric ++ " automorphisms=" ++ toString r.symmetries.length ++
    " deletes=" ++ toString r.deletes

def conflictLines (g : Grammar dungeon) : List String :=
  if g.hasConflicts then
    g.conflicts.map fun c =>
      "conflict: " ++ ruleLabel c.cutter ++ " may delete what " ++ ruleLabel c.victim ++
        " relies on"
  else ["no conflicts"]

def ruleLines (g : Grammar dungeon) : List String :=
  g.rules.toList.map ruleLine ++ conflictLines g ++ ["parity armed: " ++ toString g.armed]

/-! ## Running -/

def succeed (output : String) (d : Directory) : Outcome := ⟨0, output, none, d⟩

def failWith (doing : String) (f : Failure) (output : String) (d : Directory) : Outcome :=
  ⟨1, output, some (errorText doing f), d⟩

def runGrow (s : Settings) (options : GrowOptions) (d : Directory) : Outcome :=
  match Dungeon.register (.empty s) with
  | .error e => failWith "register dungeon rules" (.draft e) "" d
  | .ok ready =>
    let start : Level := ⟨Dungeon.initial, DungeonStats.zero, .ofSeed options.seed⟩
    match growLevel ready.grammar ready.ids options.batch options.steps options.steps start with
    | .error (step, e) => failWith ("rewrite step " ++ toString step) (.apply e) "" d
    | .ok level =>
      succeed (if options.json then (levelJson level).pretty ++ "\n"
        else unlines (levelSummary level)) d

def runRules (s : Settings) (d : Directory) : Outcome :=
  match Dungeon.register (.empty s) with
  | .error e => failWith "register dungeon rules" (.draft e) "" d
  | .ok ready => succeed (unlines (ruleLines ready.grammar)) d

def runList (profile : ProfileName) (d : Directory) : Outcome :=
  match Profile.names d with
  | .error e => failWith "list profiles" (.profile e) "" d
  | .ok names =>
    succeed (unlines (names.map fun n => (if n = profile then "* " else "  ") ++ n.text)) d

def runConfig (profile : ProfileName) (s : Settings) (save : Bool) (d : Directory) : Outcome :=
  let output := s.toJson.pretty ++ "\n"
  if ¬ save then succeed output d
  else
    let answer := Profile.save profile s d
    match answer.result with
    | .error e =>
      failWith ("save rule system profile " ++ profile.text) (.profile e) output answer.store
    | .ok () => succeed output answer.store

def runCommand (i : Invocation) (d : Directory) : Outcome :=
  let answer := Profile.load i.profile d
  match answer.result with
  | .error e =>
    failWith ("load rule system profile " ++ i.profile.text) (.profile e) "" answer.store
  | .ok s =>
    match i.command with
    | .grow options => runGrow s options answer.store
    | .rules => runRules s answer.store
    | .config _ true => runList i.profile answer.store
    | .config save false => runConfig i.profile s save answer.store

def usage : List String :=
  ["Usage: graph-splice [OPTIONS] <COMMAND>", "",
    "Commands:",
    "  grow    [--steps N] [--seed S] [--batch] [--json]",
    "  rules",
    "  config  [--save | --list]", "",
    "Options:",
    "  --config-dir <DIR>",
    "  --profile <NAME>"]

/-- The outcome of arguments that name no command to be run. -/
def refuse (d : Directory) : Refusal → Outcome
  | .help => succeed (unlines usage) d
  | .version => succeed "graph-splice 0.1.0\n" d
  | .misuse => ⟨2, "", none, d⟩

def run (arguments : List String) (d : Directory) : Outcome :=
  match parse arguments with
  | .error refusal => refuse d refusal
  | .ok invocation => runCommand invocation d

end GraphSplice.CommandLine
