import GraphSplice.CommandLine.Run

/-!
The program. It reads the directory of profiles, runs the command on it, and brings the directory
to the state that the command leaves.
-/

namespace GraphSplice.CommandLine

/-- The directory of profiles if none is named: one of the user's own. -/
def userDirectory : IO (Option String) := do
  match ← IO.getEnv "XDG_CONFIG_HOME", ← IO.getEnv "HOME" with
  | some config, home =>
    if config.startsWith "/" then return some (config ++ "/graph-splice")
    else return home.map (· ++ "/.config/graph-splice")
  | none, home => return home.map (· ++ "/.config/graph-splice")

/-- The entries of a directory, which is created if it is missing. Of the files only the one
named `wanted` is read. -/
def readEntries (base wanted : String) : IO Directory := do
  IO.FS.createDirAll base
  let entries ← ((← IO.currentDir) / base).readDir
  let listing ← entries.toList.mapM fun entry => do
    if ← entry.path.isDir then return (entry.fileName, Entry.folder)
    else if entry.fileName = wanted then
      let content ← IO.FS.readBinFile entry.path
      return (entry.fileName, Entry.file content.toList)
    else return (entry.fileName, Entry.file [])
  return ⟨some listing⟩

def content? (d : Directory) (file : String) : Option Bytes :=
  match d.entry? file with
  | some (.file content) => some content
  | _ => none

/-- Removes the files that are gone, and writes those that changed beside their place before
they are renamed to it. -/
def writeEntries (base : String) (before after : Directory) : IO Unit := do
  for (name, _) in before.listing do
    if (after.entry? name).isNone then IO.FS.removeFile (base ++ "/" ++ name)
  for (name, entry) in after.listing do
    match entry with
    | .folder => pure ()
    | .file content =>
      if content? before name ≠ some content then
        let beside := base ++ "/." ++ name ++ ".tmp"
        IO.FS.writeBinFile beside ⟨content.toArray⟩
        IO.FS.rename beside (base ++ "/" ++ name)

/-- Prints what a command leaves for the reader, and answers its exit code. -/
def present (o : Outcome) : IO UInt32 := do
  IO.print o.output
  match o.error with
  | some text => IO.eprintln text
  | none => if o.code ≠ 0 then IO.eprint (unlines usage)
  return o.code.toUInt32

/-- Runs a command on the directory at `base`. -/
def runAt (base : String) (i : Invocation) : IO UInt32 := do
  let before ← readEntries base (Directory.fileName i.profile)
  let outcome := runCommand i before
  writeEntries base before outcome.directory
  present outcome

/-- The directory that the arguments name, or else the user's own. -/
def chooseDirectory (i : Invocation) : IO (Option String) := do
  match i.configDir with
  | some base => return some base
  | none => userDirectory

end GraphSplice.CommandLine

open GraphSplice.CommandLine in
def main (arguments : List String) : IO UInt32 := do
  match parse arguments with
  | .error refusal => present (refuse .gone refusal)
  | .ok invocation =>
    match ← chooseDirectory invocation with
    | none => present (failWith "open profile store" (.profile .noDirectory) "" .gone)
    | some base =>
      try runAt base invocation
      catch e => present ⟨1, "", some ("Error: " ++ toString e), .gone⟩
